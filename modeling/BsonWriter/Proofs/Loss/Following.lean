import BsonWriter.Proofs.Action.Blind
import BsonWriter.Proofs.Output.Limit
import BsonWriter.Proofs.Run.Frame
import BsonWriter.Proofs.Run.Script

/-!
Two sessions that do the same over two sinks, of which the second takes everything. Until
the first sink fails they are even: they differ in their sinks only, and both sinks hold the
same. Where it fails the first session falls behind: its sink has what it has place for of
what the other has, and it is full, or it cannot be flushed and nothing is left to hand over.
An action is tame if in even sessions it either does the same in both or fails for the sink
of the first, which has fallen behind then. The rules follow the shape of actions, up to the
calls that have no calls inside (`Call.tame_single`).
-/

namespace BsonWriter

/-! ## Even and behind -/

/-- The sessions differ in their sinks only, which hold the same. The first sink is a state of
`s₀`, the second takes everything. -/
structure Writer.Even (s₀ : Sink) (w v : Writer) : Prop where
  same : v = { w with sink := v.sink }
  held : v.sink.held = w.sink.held
  state : s₀.StateOf w.sink
  takes : v.sink.TakesAll

/-- The first session has lost its sink, in one of two ways: the sink is full with what it has
place for of what the second sink holds, or it cannot be flushed and the session has nothing
left to hand over. -/
structure Writer.Behind (s₀ : Sink) (w v : Writer) : Prop where
  state : s₀.StateOf w.sink
  takes : v.sink.TakesAll
  lost : (w.sink.isFull = true ∧ w.sink.held = s₀.kept v.sink.held) ∨
    (s₀.flushFails = true ∧ w.buffer.held = [] ∧ w.sink.held <+: v.sink.held)

/-- The sink takes everything, and holds `bs` in front. -/
def Writer.Fed (bs : Bytes) (w : Writer) : Prop := w.sink.TakesAll ∧ bs <+: w.sink.held

namespace Writer

variable {s₀ : Sink} {w v : Writer}

theorem Even.intro {sink : Sink} (hs : s₀.StateOf w.sink) (ht : sink.TakesAll)
    (hh : sink.held = w.sink.held) : Even s₀ w { w with sink } := ⟨rfl, hh, hs, ht⟩

theorem Even.buffer (h : Even s₀ w v) : v.buffer = w.buffer := by
  rw [h.same]

theorem Even.fail (h : Even s₀ w v) : Even s₀ w.fail v.fail := by
  refine ⟨?_, by rw [sink_fail, sink_fail, h.held], by rw [sink_fail]; exact h.state,
    by rw [sink_fail]; exact h.takes⟩
  rw [h.same]
  unfold Writer.fail
  split <;> rfl

/-- What the second sink receives later does not belong to the first. -/
theorem Behind.mono {v' : Writer} (h : Behind s₀ w v) (hv : v'.Fed v.sink.held) :
    Behind s₀ w v' := by
  obtain ⟨htakes, later, hlater⟩ := hv
  refine ⟨h.state, htakes, ?_⟩
  obtain ⟨hfull, hkept⟩ | ⟨hflush, hempty, hfront⟩ := h.lost
  · obtain ⟨rest, hrest⟩ : w.sink.held <+: v.sink.held := hkept ▸ s₀.kept_prefix v.sink.held
    refine .inl ⟨hfull, ?_⟩
    rw [← hlater, ← hrest, List.append_assoc, h.state.kept_of_full hfull]
  · exact .inr ⟨hflush, hempty, hfront.trans ⟨later, hlater⟩⟩

theorem Behind.fail_left (h : Behind s₀ w v) : Behind s₀ w.fail v := by
  refine ⟨by rw [sink_fail]; exact h.state, h.takes, ?_⟩
  rw [sink_fail, buffer_fail]
  exact h.lost

/-- In both cases the first sink holds a front part of what the second holds, and what it has
place for unless it cannot be flushed. -/
theorem Even.tail (h : Even s₀ w v) : w.sink.held <+: v.sink.held ∧
    (s₀.flushFails = false → w.sink.held = s₀.kept v.sink.held) := by
  rw [h.held]
  exact ⟨List.prefix_rfl, fun _ => h.state.fits.symm⟩

theorem Behind.tail (h : Behind s₀ w v) : w.sink.held <+: v.sink.held ∧
    (s₀.flushFails = false → w.sink.held = s₀.kept v.sink.held) := by
  obtain ⟨-, hkept⟩ | ⟨hflush, -, hfront⟩ := h.lost
  · exact ⟨hkept ▸ s₀.kept_prefix v.sink.held, fun _ => hkept⟩
  · exact ⟨hfront, fun hf => by rw [hflush] at hf; cases hf⟩

theorem Fed.delivered {bs : Bytes} (h : w.Fed bs) (cs : Bytes) {sink : Sink}
    {result : Except Sink.Fault Unit} (ho : w.sink.handOver cs = (result, sink)) :
    result = .ok () ∧ Fed bs { w with sink } := by
  obtain ⟨s', ht, hs', hheld⟩ := Sink.handOver_of_takesAll h.1 cs
  rw [ho, Prod.mk.injEq] at hs'
  obtain ⟨rfl, rfl⟩ := hs'
  exact ⟨rfl, ht, h.2.trans ⟨cs, hheld.symm⟩⟩

theorem Fed.fail {bs : Bytes} (h : w.Fed bs) : w.fail.Fed bs := by
  rwa [Fed, sink_fail]

theorem robust_fed (bs : Bytes) : Robust (Fed bs) where
  grown _ _ h _ := h
  delivered _ cs h := (h.delivered cs rfl).2
  flushed _ h := ⟨Sink.takesAll_flush h.1, h.2⟩
  moved _ _ _ _ h := h
  spelled _ _ h := h
  failed _ h := h.fail

end Writer

namespace Action

open Writer (Even Behind Fed)

variable {α β : Type} {s₀ : Sink} {w v : Writer}

/-! ## Tame actions -/

/-- Both sessions do the same and are even afterwards, or the sink of the first fails, which
is behind then. -/
inductive Follows (s₀ : Sink) (a : Action α) (w v : Writer) : Prop
  | ok {x : α} {w' v' : Writer} : a.run w = .ok x w' → a.run v = .ok x v' → Even s₀ w' v' →
    Follows s₀ a w v
  | error {e : Error} {w' v' : Writer} : a.run w = .error e w' → a.run v = .error e v' →
    Even s₀ w' v' → Follows s₀ a w v
  | lost {e : Error} {w' : Writer} : a.run w = .error e w' → e.isIo = true →
    Behind s₀ w' (a.after v) → Follows s₀ a w v

/-- Even sessions stay together, and a sink that takes everything does so and keeps what it
has. -/
structure Tame (s₀ : Sink) (a : Action α) : Prop where
  follows : ∀ {w v}, Even s₀ w v → Follows s₀ a w v
  grows : ∀ bs, Keeps (Fed bs) a

theorem Follows.of_run {a b : Action α} {w' v' : Writer} (h : Follows s₀ b w' v')
    (hw : a.run w = b.run w') (hv : a.run v = b.run v') : Follows s₀ a w v := by
  cases h with
  | ok hb hb' he => exact .ok (hw.trans hb) (hv.trans hb') he
  | error hb hb' he => exact .error (hw.trans hb) (hv.trans hb') he
  | lost hb hio hbehind =>
    refine .lost (hw.trans hb) hio ?_
    rw [after, hv]
    exact hbehind

theorem Tame.fed {a : Action α} (ha : Tame s₀ a) {bs : Bytes} (h : v.Fed bs) :
    (a.after v).Fed bs := Yields.after (ha.grows bs v h)

/-- What does not look at the sink does the same in even sessions. -/
theorem Blind.together {a : Action α} (h : a.Blind) (he : Even s₀ w v) :
    match a.run w with
    | .ok x w' => ∃ v', a.run v = .ok x v' ∧ Even s₀ w' v'
    | .error e w' => ∃ v', a.run v = .error e v' ∧ Even s₀ w' v' := by
  have hsink := h.sink_after w
  have heven : Even s₀ (a.after w) { a.after w with sink := v.sink } :=
    .intro (by rw [hsink]; exact he.state) he.takes (by rw [hsink]; exact he.held)
  rw [he.same]
  cases hr : a.run w with
  | ok x w' =>
    rw [after_of_ok hr] at heven
    exact ⟨_, h.run_ok hr v.sink, heven⟩
  | error e w' =>
    rw [after_of_error hr] at heven
    exact ⟨_, h.run_error hr v.sink, heven⟩

theorem Blind.tame {a : Action α} (h : a.Blind) : Tame s₀ a where
  follows {w v} he := by
    have htogether := h.together he
    cases hw : a.run w with
    | ok x w' =>
      rw [hw] at htogether
      obtain ⟨v', hv, he'⟩ := htogether
      exact .ok hw hv he'
    | error e w' =>
      rw [hw] at htogether
      obtain ⟨v', hv, he'⟩ := htogether
      exact .error hw hv he'
  grows bs w hw := by
    refine (h w w.sink (fun _ => Fed bs) fun _ => Fed bs).mpr ?_
    exact yields_of_forall (fun _ _ => hw) fun _ _ => hw

/-! In a session that is behind, what follows is not carried out; in the other it may be. -/

theorem Behind.andThen {a : Action β} {f : β → Action α} (h : Behind s₀ w (a.after v))
    (hf : ∀ x bs, Keeps (Fed bs) (f x)) : Behind s₀ w ((a >>= f).after v) := by
  refine h.mono ?_
  have hfed : (a.after v).Fed (a.after v).sink.held := ⟨h.takes, List.prefix_rfl⟩
  rw [after_andThen]
  unfold after at hfed ⊢
  cases hv : a.run v with
  | ok x v' =>
    rw [hv] at hfed
    exact Yields.after (hf x _ v' hfed)
  | error e v' =>
    rw [hv] at hfed
    exact hfed

theorem Behind.tracked {a : Action α} (h : Behind s₀ w (a.after v)) :
    Behind s₀ w.fail ((tracked a).after v) := by
  refine h.fail_left.mono ?_
  have hfed : (a.after v).Fed (a.after v).sink.held := ⟨h.takes, List.prefix_rfl⟩
  rw [after_tracked]
  unfold after at hfed ⊢
  cases hv : a.run v with
  | ok x v' =>
    rw [hv] at hfed
    exact hfed
  | error e v' =>
    rw [hv] at hfed
    exact hfed.fail

theorem tame_andThen {a : Action β} {f : β → Action α} (ha : Tame s₀ a)
    (hf : ∀ x, Tame s₀ (f x)) : Tame s₀ (a >>= f) where
  grows bs := Keeps.andThen (ha.grows bs) fun x => (hf x).grows bs
  follows {w v} he := by
    cases ha.follows he with
    | @ok x _ _ hw hv he' =>
      exact ((hf x).follows he').of_run (by rw [run_andThen, hw]) (by rw [run_andThen, hv])
    | error hw hv he' => exact .error (by rw [run_andThen, hw]) (by rw [run_andThen, hv]) he'
    | lost hw hio hbehind =>
      exact .lost (by rw [run_andThen, hw]) hio (Behind.andThen hbehind fun x => (hf x).grows)

theorem tame_tracked {a : Action α} (ha : Tame s₀ a) : Tame s₀ (tracked a) where
  grows bs := Keeps.tracked (ha.grows bs) fun _ hw => hw.fail
  follows {w v} he := by
    cases ha.follows he with
    | ok hw hv he' => exact .ok (by rw [run_tracked, hw]) (by rw [run_tracked, hv]) he'
    | error hw hv he' =>
      exact .error (by rw [run_tracked, hw]) (by rw [run_tracked, hv]) he'.fail
    | lost hw hio hbehind => exact .lost (by rw [run_tracked, hw]) hio (Behind.tracked hbehind)

theorem tame_get {f : Writer → Action α} (hf : ∀ w sink, f { w with sink } = f w)
    (h : ∀ w, Tame s₀ (f w)) : Tame s₀ (get >>= f) where
  grows bs w hw := (h w).grows bs w hw
  follows {w v} he := by
    refine ((h w).follows he).of_run rfl ?_
    rw [run_andThen, show (get : Action Writer).run v = .ok v v from rfl]
    dsimp only
    rw [he.same, hf]

theorem tame_forM {f : Container → Action Unit} (hf : ∀ c, Tame s₀ (f c)) :
    (cs : List Container) → Tame s₀ (cs.forM f)
  | [] => (blind_pure ()).tame
  | c :: cs => tame_andThen (hf c) fun _ => tame_forM hf cs

/-! ## Output -/

theorem tame_drain : Tame s₀ drain where
  grows bs := (Writer.robust_fed bs).drain
  follows {w v} he := by
    obtain ⟨sink', htakes, ho', hheld'⟩ := Sink.handOver_of_takesAll he.takes v.buffer.held
    obtain ⟨hstate, hkept, hfull⟩ := Sink.handOver_limited he.state w.buffer.held
    have hbuffer := he.buffer
    have hv : drain.run v = .ok () { v with buffer := v.buffer.drained, sink := sink' } := by
      rw [run_drain, ho']
    rcases ho : w.sink.handOver w.buffer.held with ⟨result, sink⟩
    rw [ho] at hstate hkept hfull
    cases result with
    | ok u =>
      refine .ok (by rw [run_drain, ho]) hv ⟨?_, ?_, hstate, htakes⟩
      · rw [he.same]
      · rw [hheld', hbuffer, he.held, Sink.handOver_of_ok ho]
    | error fault =>
      refine .lost (by rw [run_drain, ho]) rfl ?_
      rw [after_of_ok hv]
      refine ⟨hstate, htakes, .inl ⟨hfull ⟨fault, rfl⟩, ?_⟩⟩
      dsimp only at hkept ⊢
      rw [hkept, hheld', hbuffer, he.held]

theorem held_of_drain {w' : Writer} (h : drain.run w = .ok () w') : w'.buffer.held = [] := by
  have hy : drain.Yields w (fun _ v => v.buffer.held = []) fun _ _ => True := by
    rw [yields_drain]
    split
    · rfl
    · trivial
  exact hy.of_ok h

/-- Where only the flush of the first sink fails, all that the session had is in the sink. -/
theorem tame_flushSink : Tame s₀ flushSink where
  grows bs := (Writer.robust_fed bs).flushSink
  follows {w v} he := by
    cases tame_drain.follows he with
    | @ok u w' v' hw hv he' =>
      have hv' : flushSink.run v = .ok () { v' with sink := v'.sink.flush.2 } := by
        rw [run_flushSink, hv]
        dsimp only
        rw [if_neg (by rw [he'.takes.flushes]; exact Bool.false_ne_true)]
      have htakes := Sink.takesAll_flush he'.takes
      cases hf : w'.sink.flushFails with
      | false =>
        refine .ok (by rw [run_flushSink, hw]; dsimp only; rw [hf]; rfl) hv' ?_
        exact ⟨by rw [he'.same], he'.held, he'.state.flush, htakes⟩
      | true =>
        refine .lost (by rw [run_flushSink, hw]; dsimp only; rw [hf]; rfl) rfl ?_
        rw [after_of_ok hv']
        refine ⟨he'.state.flush, htakes, .inr ⟨he'.state.flushFails.symm.trans hf, ?_, ?_⟩⟩
        · exact @held_of_drain w w' hw
        · exact he'.held ▸ List.prefix_rfl
    | error hw hv he' =>
      exact .error (by rw [run_flushSink, hw]) (by rw [run_flushSink, hv]) he'
    | lost hw hio hbehind =>
      refine .lost (by rw [run_flushSink, hw]) hio (Behind.andThen hbehind fun _ bs u hu => ?_)
      have hflushed := (Writer.robust_fed bs).flushed u hu
      rw [yields_andThen, yields_get]
      generalize u.sink.flush = reply at hflushed ⊢
      obtain ⟨_ | _, sink⟩ := reply <;> exact hflushed

theorem tame_ite {p : Prop} [Decidable p] {a b : Action α} (ha : Tame s₀ a) (hb : Tame s₀ b) :
    Tame s₀ (if p then a else b) := by
  split
  · exact ha
  · exact hb

theorem tame_drainIfStreaming : Tame s₀ drainIfStreaming :=
  tame_get (fun _ _ => rfl) fun _ => tame_ite tame_drain (blind_pure ()).tame

theorem tame_drainOrPatchLength (streaming : Bool) (start : Nat) :
    Tame s₀ (if streaming then drain else patchLength start) :=
  tame_ite tame_drain (blind_patchLength start).tame

/-! ## Values, ends and scopes -/

theorem tame_closeContainer : Tame s₀ closeContainer where
  grows bs w hw := by
    rw [yields_closeContainer]
    cases w.containers with
    | nil => exact hw
    | cons c cs => exact (Writer.robust_fed bs).drainOrPatchLength _ _ _ hw
  follows {w v} he := by
    have hv : closeContainer.run v = closeContainer.run { w with sink := v.sink } := by
      rw [← he.same]
    cases hc : w.containers with
    | nil =>
      have hc' : v.containers = [] := by rw [he.same]; exact hc
      exact .error (run_eq_error_iff.mpr (by rw [yields_closeContainer, hc]; exact ⟨rfl, rfl⟩))
        (run_eq_error_iff.mpr (by rw [yields_closeContainer, hc']; exact ⟨rfl, rfl⟩)) he
    | cons c cs =>
      have heven := Even.intro
        (w := { w with containers := cs, buffer := w.buffer.append [endOfDocument] })
        he.state he.takes he.held
      refine ((tame_drainOrPatchLength w.options.streaming c.header).follows heven).of_run ?_ ?_
      · exact run_eq_of_yields fun Q E => by rw [yields_closeContainer, hc]
      · rw [hv]
        exact run_eq_of_yields fun Q E => by rw [yields_closeContainer, hc]

theorem tame_endContainer (shape : Shape) : Tame s₀ (endContainer shape) := by
  rw [endContainer_eq]
  exact tame_tracked <| tame_andThen blind_checkRunning.tame fun _ =>
    tame_andThen (blind_advance _).tame fun _ => tame_closeContainer

theorem tame_endScope (mark : ScopeMark) : Tame s₀ (endScope mark) := by
  refine tame_tracked (tame_get (fun _ _ => rfl) fun w => ?_)
  have hended : Tame s₀ (do
      endDocument
      unless (← get).options.streaming do patchLength mark.start
      drainIfStreaming) := by
    refine tame_andThen (tame_endContainer .document) fun _ => tame_get (fun _ _ => rfl) fun u => ?_
    split
    · exact tame_drainIfStreaming
    · exact tame_andThen (blind_patchLength _).tame fun _ => tame_drainIfStreaming
  split
  · exact hended
  · exact tame_andThen (blind_raise _).tame fun _ => hended

theorem tame_write (place : Place) (value : Scalar) : Tame s₀ (write place value) := by
  refine tame_andThen (blind_take _ _ _).tame fun slot => tame_tracked ?_
  refine tame_get (fun _ _ => rfl) fun w => ?_
  exact tame_andThen (blind_fillScalar _ _).tame fun _ => tame_andThen (blind_emit _).tame fun _ =>
    tame_drainIfStreaming

theorem tame_flush : Tame s₀ flush := by
  refine tame_tracked (tame_get (fun _ _ => rfl) fun w => ?_)
  split
  · exact tame_andThen (blind_raise _).tame fun _ => tame_flushSink
  · exact tame_flushSink

theorem tame_closing (w : Writer) : Tame s₀ (closing w) := by
  unfold closing
  split
  · exact (blind_pure ()).tame
  · exact (blind_modify fun _ _ => rfl).tame
  · have hends : Tame s₀ (endAll w) :=
      tame_ite (tame_forM (fun c => tame_endContainer c.shape) _) (blind_pure ()).tame
    exact tame_andThen hends fun _ => tame_andThen (tame_tracked tame_flushSink) fun _ =>
      (blind_modify fun _ _ => rfl).tame

theorem tame_close : Tame s₀ close where
  grows bs := (Writer.robust_fed bs).close fun _ hw => hw
  follows {w v} he := by
    refine ((tame_closing w).follows he).of_run (run_close_eq w) ?_
    rw [run_close_eq, he.same]
    rfl

theorem tame_codeWithScope {scope : Action Unit} (hs : Tame s₀ scope) (place : Place)
    (code : String) : Tame s₀ (codeWithScope place code scope) :=
  tame_andThen (blind_beginScope place code).tame fun mark =>
    tame_andThen (tame_tracked hs) fun _ => tame_endScope mark

/-- What follows the calls of a scope. -/
theorem tame_finishScope (mark : ScopeMark) (result : Except Error Unit) :
    Tame s₀ (Call.finishScope mark result) := by
  cases result with
  | ok u => exact tame_endScope mark
  | error e => exact tame_tracked (blind_throw e).tame

/-- Data are written by tame calls. -/
theorem tame_inherited : Datum.Inherited (Tame s₀) where
  nothing := (blind_pure ()).tame
  raised cause := (blind_raise cause).tame
  followed ha hb := tame_andThen ha fun _ => hb
  named name := (blind_fieldName name).tame
  began shape := (blind_beginContainer .direct shape).tame
  ended := tame_endContainer
  written := tame_write .direct

end Action

namespace Call

open BsonWriter.Action

/-- The call has no calls inside. -/
def Single : Call → Prop
  | codeWithCalls .. => False
  | _ => True

theorem run_single {call : Call} (h : call.Single) (w : Writer) :
    call.run w = .ofAction call.action w [] := by
  cases call with
  | codeWithCalls => exact h.elim
  | _ => rw [run]; exact nofun

theorem tame_single {call : Call} (h : call.Single) (s₀ : Sink) : Tame s₀ call.action := by
  cases call with
  | beginContainer place shape => exact (blind_beginContainer place shape).tame
  | endContainer shape => exact tame_endContainer shape
  | fieldName name => exact (blind_fieldName name).tame
  | write place value => exact tame_write place value
  | abandon place => exact (blind_abandon place).tame
  | serialize d => exact tame_tracked (tame_inherited.datum .plain d)
  | flush => exact tame_flush
  | close => exact tame_close
  | setEscapes table => exact (blind_modify fun _ _ => rfl).tame
  | inspect => exact (blind_pure ()).tame
  | codeWithDatum place code d =>
    exact tame_codeWithScope (tame_inherited.datum .fields d) place code
  | codeWithCalls => exact h.elim

end Call

end BsonWriter
