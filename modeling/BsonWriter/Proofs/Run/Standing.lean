import BsonWriter.Proofs.Run.Moves
import BsonWriter.Proofs.Streaming.Output

/-!
Bytes that stay as they are. What a session has written changes only in fields that are
still to be filled: the type byte that waits, and the length fields of the containers and
scopes that are open. A byte in none of them is `Final`, and every step that goes well leaves
the final bytes alone and final (`Step.carries_apply`). So they reach the sink as they are
(`Progress.fixed_of_final`).
-/

namespace BsonWriter

open BsonWriter.Action

/-- The session has written what it had written before, in `output`, and perhaps more. Where
`final` holds, nothing has changed. -/
def Writer.Carries (before output : Bytes) (final : Nat → Prop) (w : Writer) : Prop :=
  ∃ now, Shows before w.sink w.buffer now ∧ output.length ≤ now.length ∧
    ∀ i < output.length, final i → now[i]? = output[i]?

/-- None of the `count` bytes from an offset on is final. -/
def Loose (output : Bytes) (final : Nat → Prop) (offset count : Nat) : Prop :=
  ∀ i < output.length, final i → i < offset ∨ offset + count ≤ i

/-- No field that is still to be filled lies at the offset. -/
structure Progress.Final (p : Progress) (i : Nat) : Prop where
  slot : p.writer.slot ≠ some i
  headers : ∀ header ∈ p.writer.containers.map Container.header, i < header ∨ header + 4 ≤ i
  marks : ∀ mark ∈ p.scopes, i < mark.start ∨ mark.start + 4 ≤ i

/-- If all goes well, the action changes no byte that is final. -/
def Action.Spares {α : Type} (before output : Bytes) (final : Nat → Prop) (a : Action α) : Prop :=
  ∀ w : Writer, w.Carries before output final →
    a.Yields w (fun _ => Writer.Carries before output final) (fun _ _ => True)

section

variable {before output : Bytes} {final : Nat → Prop} {w w' : Writer}

/-! ## Output -/

namespace Writer.Carries

theorem congr (h : w.Carries before output final) (hs : w'.sink.held = w.sink.held)
    (hb : w'.buffer = w.buffer) : w'.Carries before output final := by
  unfold Carries Shows
  rw [hs, hb]
  exact h

theorem append (h : w.Carries before output final) (bs : Bytes) :
    Writer.Carries before output final { w with buffer := w.buffer.append bs } := by
  obtain ⟨now, hshows, hle, hget⟩ := h
  refine ⟨now ++ bs, hshows.append bs, ?_, fun i hi hf => ?_⟩
  · rw [List.length_append]
    exact Nat.le_add_right_of_le hle
  · rw [List.getElem?_append_left (Nat.lt_of_lt_of_le hi hle)]
    exact hget i hi hf

theorem patch (h : w.Carries before output final) {offset : Nat} {bs : Bytes} {b : Buffer}
    (hp : w.buffer.patch offset bs = .ok b) (hl : Loose output final offset bs.length) :
    Writer.Carries before output final { w with buffer := b } := by
  obtain ⟨now, hshows, hle, hget⟩ := h
  have hroom : offset + bs.length ≤ now.length := by
    rw [hshows.length]
    exact (Buffer.patch_eq_ok_iff.mp hp).2.1
  refine ⟨_, hshows.patch hp, by rw [Buffer.length_overwrite hroom]; exact hle, fun i hi hf => ?_⟩
  have hbeside := hl i hi hf
  rw [Buffer.getElem?_overwrite hroom, if_neg (by omega)]
  exact hget i hi hf

theorem size_le (h : w.Carries before output final) : output.length ≤ w.buffer.size := by
  obtain ⟨now, hshows, hle, -⟩ := h
  rwa [← hshows.length]

end Writer.Carries

namespace Action

open Writer (Carries)

variable {α β : Type}

namespace Spares

theorem andThen {a : Action β} {f : β → Action α} (ha : a.Spares before output final)
    (hf : ∀ x, (f x).Spares before output final) : (a >>= f).Spares before output final := by
  intro w hw
  rw [yields_andThen]
  exact (ha w hw).mono (fun x v hv => hf x v hv) fun _ _ h => h

theorem tracked {a : Action α} (ha : a.Spares before output final) :
    (Action.tracked a).Spares before output final := by
  intro w hw
  rw [yields_tracked]
  exact ha w hw

end Spares

theorem spares_emit (p : Payload) : (emit p).Spares before output final := by
  intro w hw
  rw [yields_emit]
  cases p.failure with
  | none => exact hw.append _
  | some cause => trivial

theorem spares_patch {offset : Nat} {bs : Bytes} (hl : Loose output final offset bs.length) :
    (patch offset bs).Spares before output final := by
  intro w hw
  rw [yields_patch]
  cases hp : w.buffer.patch offset bs with
  | error cause => trivial
  | ok b => exact hw.patch hp hl

theorem spares_patchLength {start : Nat} (hl : Loose output final start 4) :
    (patchLength start).Spares before output final := by
  intro w hw
  unfold patchLength
  simp only [yields_andThen, yields_offset, yields_ite, yields_raise]
  split
  · exact spares_patch (by rwa [length_lengthField]) w hw
  · trivial

/-- Handing over does not change what has been written. -/
theorem shows_drain {now : Bytes} (h : Shows before w.sink w.buffer now) :
    drain.Yields w (fun _ v => Shows before v.sink v.buffer now) (fun _ _ => True) := by
  rw [yields_drain]
  cases hr : w.sink.handOver w.buffer.held with
  | mk result sink =>
    cases result with
    | error fault => trivial
    | ok u => exact h.discard (Sink.handOver_of_ok hr)

theorem shows_drainIfStreaming {now : Bytes} (h : Shows before w.sink w.buffer now) :
    drainIfStreaming.Yields w (fun _ v => Shows before v.sink v.buffer now)
      (fun _ _ => True) := by
  rw [yields_drainIfStreaming]
  split
  · exact shows_drain h
  · exact h

theorem spares_drain : drain.Spares before output final := by
  rintro w ⟨now, hshows, hnow⟩
  exact (shows_drain hshows).mono (fun _ v hv => ⟨now, hv, hnow⟩) fun _ _ h => h

theorem spares_drainIfStreaming : drainIfStreaming.Spares before output final := by
  rintro w ⟨now, hshows, hnow⟩
  exact (shows_drainIfStreaming hshows).mono (fun _ v hv => ⟨now, hv, hnow⟩) fun _ _ h => h

theorem spares_drainOrPatchLength (streaming : Bool) {start : Nat}
    (hl : Loose output final start 4) :
    (if streaming then drain else patchLength start).Spares before output final := by
  split
  · exact spares_drain
  · exact spares_patchLength hl

theorem spares_flushSink : flushSink.Spares before output final := by
  intro w hw
  rw [yields_flushSink]
  refine (spares_drain w hw).mono (fun _ v hv => ?_) fun _ _ h => h
  split
  · trivial
  · exact hv.congr rfl rfl

theorem spares_fill {slot : Option Nat}
    (hl : ∀ start, slot = some start → Loose output final start 1) (type : ElementType) :
    (fill slot type).Spares before output final := by
  cases slot with
  | none => exact fun _ hw => hw
  | some start => exact spares_patch (hl start rfl)

theorem spares_fillScalar {slot : Option Nat}
    (hl : ∀ start, slot = some start → Loose output final start 1) (type : ElementType) :
    (fillScalar slot type).Spares before output final := by
  cases slot with
  | none => exact fun _ _ => trivial
  | some start => exact spares_fill hl type

/-! ## Names and values -/

theorem spares_fieldName (name : String) : (fieldName name).Spares before output final := by
  intro w hw
  refine yields_fieldName (fun _ => trivial) fun expectations bs _ _ => ?_
  exact ⟨(hw.append (0 :: bs)).congr rfl rfl, fun _ => trivial⟩

/-- The type byte of a value is the one that waits or a new one. -/
theorem carries_takePosition (h : w.Carries before output final) (kind : ValueKind)
    (activity : Activity) : (takePosition kind activity).Yields w
      (fun slot v => v.Carries before output final ∧
        ∀ start, slot = some start → w.slot = some start ∨ output.length ≤ start)
      (fun _ _ => True) := by
  refine yields_takePosition (fun _ => trivial) ?_ ?_
  · intro expectations _ _ _
    exact ⟨h.congr rfl rfl, fun start hs => .inl hs⟩
  · intro expectations index containers bs _ _ _
    refine ⟨⟨(h.append (0 :: bs)).congr rfl rfl, fun start hs => .inr ?_⟩, fun _ => trivial⟩
    rw [← Option.some.inj hs]
    exact h.size_le

variable {slot : Option Nat} (hl : ∀ start, slot = some start → Loose output final start 1)

include hl

theorem spares_writeTo (value : Scalar) : (writeTo value slot).Spares before output final :=
  Spares.tracked <| Spares.andThen (fun _ hw => hw) fun _ =>
    Spares.andThen (spares_fillScalar hl _) fun _ =>
      Spares.andThen (spares_emit _) fun _ => spares_drainIfStreaming

theorem spares_openAt (shape : Shape) : (openAt shape slot).Spares before output final := by
  refine Spares.tracked (Spares.andThen (spares_fill hl _) fun _ w hw => ?_)
  rw [yields_openContainer]
  exact (hw.append (lengthField 0)).congr rfl rfl

theorem spares_openScopeAt (code : String) :
    (openScopeAt code slot).Spares before output final := by
  refine Spares.tracked (Spares.andThen (spares_fillScalar hl _) fun _ w hw => ?_)
  simp only [yields_andThen, yields_offset, yields_append, yields_get, yields_openContainer,
    yields_pure]
  refine (spares_emit _ _ (hw.append (lengthField 0))).mono (fun _ v hv => ?_) fun _ _ h => h
  exact (hv.append (lengthField 0)).congr rfl rfl

omit hl

/-! ## Ends -/

theorem carries_endContainer (h : w.Carries before output final)
    (hl : ∀ header ∈ w.containers.map Container.header, Loose output final header 4)
    (shape : Shape) : (endContainer shape).Yields w
      (fun _ => Carries before output final) (fun _ _ => True) := by
  refine yields_endContainer (fun _ => trivial) (fun _ _ _ _ => trivial) ?_
  intro expectations container containers _ _ hc
  have hcontainer : Loose output final container.header 4 :=
    hl _ (by rw [hc]; exact List.mem_map_of_mem List.mem_cons_self)
  exact spares_drainOrPatchLength _ hcontainer _ ((h.append [endOfDocument]).congr rfl rfl)

theorem carries_endScope (h : w.Carries before output final)
    (hl : ∀ header ∈ w.containers.map Container.header, Loose output final header 4)
    {mark : ScopeMark} (hm : Loose output final mark.start 4) : (endScope mark).Yields w
      (fun _ => Carries before output final) (fun _ _ => True) := by
  refine yields_endScope (fun _ => trivial) fun _ => ?_
  exact (carries_endContainer h hl .document).mono
    (fun _ v hv => spares_drainOrPatchLength _ hm v hv) fun _ _ h => h

theorem carries_ends (h : w.Carries before output final)
    (hl : ∀ header ∈ w.containers.map Container.header, Loose output final header 4)
    (cs : List Container) : (cs.forM fun c => endContainer c.shape).Yields w
      (fun _ => Carries before output final) (fun _ _ => True) := by
  induction cs generalizing w with
  | nil => exact h
  | cons c cs ih =>
    rw [yields_forM_cons]
    cases hrun : (endContainer c.shape).run w with
    | error e v => rw [Yields, hrun]; trivial
    | ok u v =>
      rw [yields_iff_of_ok hrun]
      obtain ⟨rest, container, containers, -, hc, hv⟩ := extends_of_endContainer hrun
      refine ih ((carries_endContainer h hl c.shape).of_ok hrun) fun header hm => hl header ?_
      rw [hv.containers] at hm
      rw [hc]
      exact List.mem_cons_of_mem _ hm

theorem carries_close (h : w.Carries before output final) (hr : w.phase = .running)
    (hl : ∀ header ∈ w.containers.map Container.header, Loose output final header 4) :
    close.Yields w (fun _ v => v.Carries before output final ∧ v.buffered = [])
      (fun _ _ => True) := by
  refine yields_close (fun hp => Phase.noConfusion (hp.symm.trans hr))
    (fun hp => Phase.noConfusion (hp.symm.trans hr)) fun _ => ?_
  have hends : (endAll w).Yields w (fun _ => Carries before output final) (fun _ _ => True) := by
    unfold endAll
    split
    · exact carries_ends h hl w.containers
    · exact h
  refine hends.mono (fun _ v hv => ?_) fun _ _ h => h
  cases hrun : flushSink.run v with
  | error e x => rw [Yields, hrun]; trivial
  | ok u x =>
    rw [yields_iff_of_ok hrun]
    obtain ⟨sink, -, hx⟩ := flushSink_eq_ok hrun
    exact ⟨((spares_flushSink v hv).of_ok hrun).congr rfl rfl, by rw [hx]; rfl⟩

end Action

end

/-! ## Steps -/

namespace Progress.Final

variable {p : Progress} {i : Nat}

/-- Only what is open and what waits matters. -/
theorem congr (h : p.Final i) {q : Progress} (hs : q.writer.slot ≠ some i)
    (hc : ∀ header ∈ q.writer.containers.map Container.header,
      header ∈ p.writer.containers.map Container.header ∨ i < header)
    (hm : ∀ mark ∈ q.scopes, mark ∈ p.scopes ∨ i < mark.start) : q.Final i := by
  refine ⟨hs, fun header hh => ?_, fun mark hmark => ?_⟩
  · rcases hc header hh with hh | hlt
    · exact h.headers header hh
    · exact .inl hlt
  · rcases hm mark hmark with hmark | hlt
    · exact h.marks mark hmark
    · exact .inl hlt

/-- A container is opened behind the byte. -/
theorem opened (h : p.Final i) {u w : Writer} (hc : u.containers.map Container.header =
      p.writer.containers.map Container.header) (hs : u.slot = none) (hw : u.Extends w)
    (hi : i < u.buffer.size) (shape : Shape) {scopes : List ScopeMark}
    (hm : ∀ mark ∈ scopes, mark ∈ p.scopes ∨ i < mark.start) :
    Progress.Final ⟨w.opened shape, scopes⟩ i := by
  refine h.congr ?_ (fun header hh => ?_) hm
  · show w.slot ≠ some i
    rw [hw.slot, hs]
    exact nofun
  · rw [Writer.opened, List.map_cons, Container.header_start] at hh
    rcases List.mem_cons.mp hh with rfl | hh
    · exact .inr (Nat.lt_of_lt_of_le hi hw.size_le)
    · rw [hw.containers, hc] at hh
      exact .inl hh

end Progress.Final

namespace Step

variable {before output : Bytes} {final : Nat → Prop} {p : Progress} {step : Step}

/-- A final byte stays final as long as the session runs. -/
theorem final_apply (hc : p.writer.Consistent) (hr : (step.apply p).writer.phase = .running)
    {i : Nat} (hi : i < p.writer.buffer.size) (h : p.Final i) : (step.apply p).Final i := by
  have hm := moves_of_running hc hr
  generalize step.apply p = q at hm
  have hsame : ∀ mark ∈ p.scopes, mark ∈ p.scopes ∨ i < mark.start := fun _ hm => .inl hm
  have htail : ∀ {container : Container} {containers : List Container} {w : Writer},
      p.writer.containers = container :: containers → w.containers = containers →
      ∀ header ∈ w.containers.map Container.header,
        header ∈ p.writer.containers.map Container.header ∨ i < header := by
    intro container containers w hc hw header hh
    rw [hw] at hh
    rw [hc]
    exact .inl (List.mem_cons_of_mem _ hh)
  cases hm with
  | checkArray | noScope => exact h
  | setEscapes | flush => exact h.congr h.slot (fun _ hh => .inl hh) hsame
  | name _ hw =>
    refine h.congr ?_ (fun header hh => ?_) hsame
    · rw [hw.slot]
      exact fun he => absurd (Option.some.inj he) (Nat.ne_of_gt hi)
    · rw [hw.containers] at hh
      exact .inl hh
  | write _ hw =>
    refine h.congr ?_ (fun header hh => ?_) hsame
    · rw [hw.slot]
      exact nofun
    · rw [hw.containers, Container.header_taken] at hh
      exact .inl hh
  | begin _ hw => exact h.opened (Container.header_taken _) rfl hw hi _ hsame
  | beginScope _ hw hle _ =>
    refine h.opened (Container.header_taken _) rfl hw hi _ fun mark hm => ?_
    rcases List.mem_cons.mp hm with rfl | hm
    · exact .inr (Nat.lt_of_lt_of_le hi hle)
    · exact .inl hm
  | finish _ hcs hw =>
    exact h.congr (by rw [hw.slot]; exact h.slot) (htail hcs hw.containers) hsame
  | endScope hs _ _ hcs hw =>
    refine h.congr (by rw [hw.slot]; exact h.slot) (htail hcs hw.containers) fun mark hm => ?_
    rw [hs]
    exact .inl (List.mem_cons_of_mem _ hm)

theorem loose_headers (hf : ∀ i < output.length, final i → p.Final i) :
    ∀ header ∈ p.writer.containers.map Container.header, Loose output final header 4 :=
  fun header hh i hi hfinal => (hf i hi hfinal).headers header hh

/-- A type byte that is taken waited until then or is new. -/
theorem loose_slot (hf : ∀ i < output.length, final i → p.Final i) {start : Nat}
    (hs : p.writer.slot = some start ∨ output.length ≤ start) : Loose output final start 1 := by
  intro i hi hfinal
  rcases hs with hs | hs
  · have hne : start ≠ i := fun he => (hf i hi hfinal).slot (by rw [hs, he])
    omega
  · omega

/-- A step that leaves the session running has left the final bytes alone. -/
theorem carries_apply (h : p.writer.Carries before output final)
    (hf : ∀ i < output.length, final i → p.Final i)
    (hr : (step.apply p).writer.phase = .running) :
    (step.apply p).writer.Carries before output final := by
  obtain ⟨hp, hn⟩ := running_of_apply hr
  have hvalue : ∀ {α : Type} {kind : ValueKind} {activity : Activity} {f : Option Nat → Action α},
      (∀ slot, (∀ start, slot = some start → Loose output final start 1) →
        (f slot).Spares before output final) →
      (takePosition kind activity >>= f).Yields p.writer
        (fun _ => Writer.Carries before output final) (fun _ _ => True) := by
    intro α kind activity f hspares
    rw [yields_andThen]
    exact (carries_takePosition h kind activity).mono (fun slot v hv =>
      hspares slot (fun start hs => loose_slot hf (hv.2 start hs)) v hv.1) fun _ _ h => h
  cases step with
  | drop | fail | failScope => exact absurd trivial hn
  | close =>
    have hclosed := phase_of_close (run_of_not_failed hn)
    exact absurd (hclosed.symm.trans hr) Phase.noConfusion
  | setEscapes table => exact h.congr rfl rfl
  | checkArray =>
    have hsame := after_checkArray (run_of_not_failed hn)
    exact h.congr (congrArg (fun w => w.sink.held) hsame) (congrArg Writer.buffer hsame)
  | name text => exact (spares_fieldName text p.writer h).of_ok (run_of_not_failed hn)
  | write activity value =>
    exact (hvalue fun slot hl => spares_writeTo hl value).of_ok (run_of_not_failed hn)
  | begin kind activity shape =>
    exact (hvalue fun slot hl => spares_openAt hl shape).of_ok (run_of_not_failed hn)
  | finish shape =>
    exact (carries_endContainer h (loose_headers hf) shape).of_ok (run_of_not_failed hn)
  | flush => exact (spares_flushSink p.writer h).of_ok (flush_eq_ok (run_of_not_failed hn))
  | beginScope activity code =>
    obtain ⟨mark, w, hopen⟩ := exists_openScope hn
    simp only [apply, hopen]
    exact (hvalue fun slot hl => spares_openScopeAt hl code).of_ok hopen
  | endScope =>
    cases hs : p.scopes with
    | nil => rwa [apply, hs]
    | cons mark scopes =>
      have hmark : Loose output final mark.start 4 := fun i hi hfinal =>
        (hf i hi hfinal).marks mark (by rw [hs]; exact List.mem_cons_self)
      have hend := (carries_endScope h (loose_headers hf) hmark).of_ok
        (run_endScope_of_not_failed hs hn)
      rwa [apply, hs]

/-- So has a run. -/
theorem carries_run (hc : p.writer.Consistent) (h : p.writer.Carries before output final)
    (hf : ∀ i < output.length, final i → p.Final i) {steps : List Step}
    (hr : (run p steps).writer.phase = .running) :
    (run p steps).writer.Carries before output final ∧
      ∀ i < output.length, final i → (run p steps).Final i := by
  induction steps generalizing p with
  | nil => exact ⟨h, hf⟩
  | cons step steps ih =>
    have hafter : (step.apply p).writer.phase = .running := running_of_run hr
    exact ih (consistent_apply hc step) (carries_apply h hf hafter)
      (fun i hi hfinal => final_apply hc hafter (Nat.lt_of_lt_of_le hi h.size_le) (hf i hi hfinal))
      hr

/-- In a session that still runs, whatever has left has reached the sink. -/
theorem exists_shows (sink : Sink) (options : Options) (storage : Bytes) {steps : List Step}
    (hr : (run ⟨Writer.onStorage sink options storage, []⟩ steps).writer.phase = .running) :
    ∃ now, Shows sink.held (run ⟨Writer.onStorage sink options storage, []⟩ steps).writer.sink
      (run ⟨Writer.onStorage sink options storage, []⟩ steps).writer.buffer now := by
  have hstart : Writer.Carries sink.held [] (fun _ => True)
      (Writer.onStorage sink options storage) :=
    ⟨[], ⟨[], (List.append_nil _).symm, rfl, rfl⟩, Nat.le_refl _, nofun⟩
  obtain ⟨⟨now, hshows, -⟩, -⟩ := carries_run (p := ⟨Writer.onStorage sink options storage, []⟩)
    (Writer.consistent_onStorage sink options storage) hstart nofun hr
  exact ⟨now, hshows⟩

end Step

/-! ## Bytes that are there to stay -/

/-- The bytes stand at an offset. -/
def HasAt (output : Bytes) (offset : Nat) (bs : Bytes) : Prop :=
  (output.drop offset).take bs.length = bs

instance (output : Bytes) (offset : Nat) (bs : Bytes) : Decidable (HasAt output offset bs) :=
  inferInstanceAs (Decidable ((output.drop offset).take bs.length = bs))

theorem hasAt_iff {output bs : Bytes} {offset : Nat} :
    HasAt output offset bs ↔ ∀ i < bs.length, output[offset + i]? = bs[i]? := by
  constructor
  · intro h i hi
    have hget := congrArg (fun l : Bytes => l[i]?) h
    simpa only [List.getElem?_take, if_pos hi, List.getElem?_drop] using hget
  · intro h
    apply List.ext_getElem?
    intro i
    rw [List.getElem?_take, List.getElem?_drop]
    split
    · exact h i (by assumption)
    · rw [List.getElem?_eq_none (by omega)]

theorem hasAt_append (front bs rest : Bytes) : HasAt (front ++ (bs ++ rest)) front.length bs := by
  rw [HasAt, List.drop_left, List.take_left]

/-- The bytes stand at an offset in all that the session has written, and will as long as it
runs; and once it has been closed without an error, the sink has them there. -/
def Progress.Fixed (before : Bytes) (p : Progress) (offset : Nat) (bs : Bytes) : Prop :=
  ∀ later, let q := Step.run p later
    q.writer.phase = .running →
      HasAt (q.writer.written before) offset bs ∧
      (¬Step.close.Fails q →
        HasAt (Step.close.apply q).writer.sink.held (before.length + offset) bs)

/-- Final bytes stand where they stood. -/
theorem Writer.Carries.hasAt {before output bs : Bytes} {final : Nat → Prop} {w : Writer}
    {offset : Nat} (h : w.Carries before output final) (hb : HasAt output offset bs)
    (hf : ∀ i, offset ≤ i → i < offset + bs.length → final i) :
    ∃ now, Shows before w.sink w.buffer now ∧ HasAt now offset bs := by
  obtain ⟨now, hshows, -, hget⟩ := h
  refine ⟨now, hshows, hasAt_iff.mpr fun i hi => ?_⟩
  have hbs := hasAt_iff.mp hb i hi
  have hlt : offset + i < output.length := by
    rw [List.getElem?_eq_getElem hi] at hbs
    exact (List.getElem?_eq_some_iff.mp hbs).1
  rw [hget _ hlt (hf _ (by omega) (by omega)), hbs]

/-- Final bytes are there to stay. -/
theorem Progress.fixed_of_final {before now bs : Bytes} {p : Progress} {offset : Nat}
    (hc : p.writer.Consistent) (h : Shows before p.writer.sink p.writer.buffer now)
    (hb : HasAt now offset bs) (hf : ∀ i, offset ≤ i → i < offset + bs.length → p.Final i) :
    p.Fixed before offset bs := by
  intro later q hr
  let final := fun i => offset ≤ i ∧ i < offset + bs.length
  have hstart : p.writer.Carries before now final := ⟨_, h, Nat.le_refl _, fun _ _ _ => rfl⟩
  obtain ⟨hcarries, hfinal⟩ := Step.carries_run hc hstart (fun i _ hi => hf i hi.1 hi.2) hr
  refine ⟨?_, fun hclose => ?_⟩
  · obtain ⟨later, hshows, hat⟩ := hcarries.hasAt hb fun i hle hlt => ⟨hle, hlt⟩
    rwa [hshows.written_eq]
  · obtain ⟨hcarries, hempty⟩ := (carries_close hcarries hr (Step.loose_headers hfinal)).of_ok
      (run_of_not_failed hclose)
    obtain ⟨_, ⟨received, hheld, -, rfl⟩, hat⟩ :=
      hcarries.hasAt hb fun i hle hlt => ⟨hle, hlt⟩
    rw [show (Action.close.after q.writer).buffer.held = [] from hempty, List.append_nil] at hat
    rw [show (Step.close.apply q).writer = Action.close.after q.writer from rfl, hheld, HasAt,
      List.drop_length_add_append]
    exact hat

/-- Between two offsets there is no field that is still to be filled. -/
theorem Progress.final_between {p : Progress} {low high : Nat} (hs : p.writer.slot = none)
    (hc : ∀ header ∈ p.writer.containers.map Container.header, header + 4 ≤ low ∨ high ≤ header)
    (hm : ∀ mark ∈ p.scopes, mark.start + 4 ≤ low ∨ high ≤ mark.start) {i : Nat} (hl : low ≤ i)
    (hh : i < high) : p.Final i := by
  refine ⟨by rw [hs]; exact nofun, fun header hheader => ?_, fun mark hmark => ?_⟩
  · have hapart := hc header hheader
    omega
  · have hapart := hm mark hmark
    omega

end BsonWriter
