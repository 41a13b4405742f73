import BsonWriter.Proofs.Flushing.Ends
import BsonWriter.Proofs.Flushing.Watermark
import BsonWriter.Proofs.Run.Lockstep

/-!
Flushing a session that keeps its output, anywhere and any number of times. A container
ends, by a call or by itself, exactly if no flush has come since it began, and then its
length is exact; a value finds its type byte exactly if no flush has come since its field
name. Whatever has been flushed too early fails the session with the offset of what has
left (`ends_fail_exactly_after_flush`).
-/

namespace BsonWriter

open BsonWriter.Action

/-! ## Between two values -/

/-- Where no value is due, the expectations are those of the open containers. -/
theorem Writer.Consistent.expectations_eq {w : Writer} (h : w.Consistent)
    (hv : ∀ rest, w.expectations ≠ .value :: rest) :
    w.expectations = w.containers.map fun c => c.shape.expectation := by
  have hall : ∀ e ∈ w.expectations, e ≠ .value := by
    cases he : w.expectations with
    | nil => exact nofun
    | cons e rest =>
      have htail := h.settled
      rw [he] at htail hv
      refine List.forall_mem_cons.mpr ⟨?_, htail⟩
      rintro rfl
      exact hv rest rfl
  have hmatch : ∀ {es : List Expectation} {cs : List Container},
      List.Forall₂ Container.Expects es cs → (∀ e ∈ es, e ≠ .value) →
        es = cs.map fun c => c.shape.expectation := by
    intro es cs ha hn
    induction ha with
    | nil => rfl
    | @cons e c es cs hc _ ih =>
      obtain ⟨hne, hn⟩ := List.forall_mem_cons.mp hn
      rw [List.map_cons, ← ih hn]
      congr 1
      obtain ⟨header, nextIndex⟩ := c
      cases nextIndex <;> cases e <;>
        simp_all [Container.Expects, Container.shape, Shape.expectation]
  exact hmatch h.aligned hall

/-- A value takes the type byte that waits, whatever it is. -/
theorem Action.run_takePosition_of_waiting {w : Writer} (h : w.Consistent)
    (hr : w.phase = .running) {start : Nat} (hs : w.slot = some start) :
    ∃ expectations, ∀ kind activity, (takePosition kind activity).run w =
      .ok (some start) { w with expectations, slot := none } := by
  obtain ⟨rest, he⟩ := (h.waits hr).mp (by rw [hs]; rfl)
  obtain ⟨c, containers, hcs, hc, -⟩ := h.exists_cons he
  have hn : Container.nextElement w.containers = none := by
    rw [hcs]
    exact Container.nextElement_of_expects hc nofun
  refine ⟨.name :: rest, fun kind activity => ?_⟩
  rw [run_eq_ok_iff, takePosition]
  simp only [yields_tracked, yields_andThen, yields_checkRunning, hr, yields_advance, he,
    Expectation.admitValue, yields_get, hn, yields_set, yields_pure, hs]
  exact ⟨trivial, trivial⟩

namespace Step

variable {p : Progress}

/-- The end of a container whose length field lies at `header`. After a flush it fails with
that offset, and the session has failed. Otherwise the session goes on, and the length is
that of everything from there on. -/
def EndsUnless (flushed : Bool) (header : Nat) (p : Progress) (step : Step) : Prop :=
  let q := step.apply p
  if flushed = true then
    step.result p = .error ⟨.alreadyFlushed header, none⟩ ∧ q.writer.phase = .failed
  else
    step.result p = .ok () ∧ q.writer.phase = .running ∧
      q.writer.buffer.Holds header (lengthField (q.writer.buffer.size - header))

theorem endsUnless_finish {flushed : Bool} {shape : Shape} {rest : List Expectation}
    {c : Container} {containers : List Container}
    (h : p.writer.Ending shape rest c containers)
    (hf : flushed = decide (c.header < p.writer.buffer.gone)) :
    EndsUnless flushed c.header p (.finish shape) := by
  have happly : (finish shape).apply p = ⟨(endContainer shape).after p.writer, p.scopes⟩ := rfl
  have hresult : (finish shape).result p = (endContainer shape).result p.writer := rfl
  rw [EndsUnless, happly, hresult]
  by_cases hg : c.header < p.writer.buffer.gone
  · have hend := run_endContainer_of_gone h hg
    rw [hf, decide_eq_true hg, result_of_error hend, after_of_error hend]
    exact ⟨rfl, by simp [Writer.fail, h.running]⟩
  · obtain ⟨b, hend, hended⟩ := exists_run_endContainer h (Nat.le_of_not_lt hg)
    rw [hf, decide_eq_false hg, result_of_ok hend, after_of_ok hend]
    exact ⟨rfl, h.running, hended.filled⟩

theorem endsUnless_endScope {flushed : Bool} {mark : ScopeMark} {scopes : List ScopeMark}
    {rest : List Expectation} {c : Container} {containers : List Container}
    (hs : p.scopes = mark :: scopes) (h : p.writer.Ending .document rest c containers)
    (hd : mark.depth = rest.length + 1)
    (hg : p.writer.buffer.gone ≤ mark.start ∨ c.header < p.writer.buffer.gone)
    (hm : mark.start + 4 ≤ c.header)
    (hf : flushed = decide (c.header < p.writer.buffer.gone)) :
    EndsUnless flushed c.header p .endScope ∧
      (flushed = false → (endScope.apply p).writer.buffer.Holds mark.start
        (lengthField ((endScope.apply p).writer.buffer.size - mark.start))) := by
  have happly : endScope.apply p = ⟨(Action.endScope mark).after p.writer, scopes⟩ := by
    rw [apply, hs]
  have hresult : endScope.result p = (Action.endScope mark).result p.writer := by
    rw [result, hs]
  rw [EndsUnless, happly, hresult]
  by_cases hgone : c.header < p.writer.buffer.gone
  · have hend := run_endScope_of_gone h hd hgone
    rw [hf, decide_eq_true hgone, result_of_error hend, after_of_error hend]
    exact ⟨⟨rfl, by simp [Writer.fail, h.running]⟩, fun h => Bool.noConfusion h⟩
  · obtain ⟨b, hend, hsize, hheader, htotal⟩ :=
      exists_run_endScope h hd (hg.resolve_right hgone) hm
    rw [hf, decide_eq_false hgone, result_of_ok hend, after_of_ok hend]
    exact ⟨⟨rfl, h.running, hheader⟩, fun _ => htotal⟩

/-- A value whose type byte has left fails the session with its offset. -/
theorem fails_of_gone {step : Step} (h : p.writer.Consistent) (hr : p.writer.phase = .running)
    (hv : step.BeginsValue) {start : Nat} (hs : p.writer.slot = some start)
    (hg : start < p.writer.buffer.gone) :
    step.result p = .error ⟨.alreadyFlushed start, none⟩ ∧
      (step.apply p).writer.phase = .failed := by
  obtain ⟨expectations, htake⟩ := run_takePosition_of_waiting h hr hs
  let u : Writer := { p.writer with expectations, slot := none }
  have hu : u.fail.phase = .failed := by simp [u, Writer.fail, hr]
  have hrun : ∀ {α : Type} kind activity (f : Option Nat → Action α),
      (f (some start)).run u = .error ⟨.alreadyFlushed start, none⟩ u.fail →
      (takePosition kind activity >>= f).run p.writer =
        .error ⟨.alreadyFlushed start, none⟩ u.fail := by
    intro α kind activity f hf
    rw [run_andThen, htake]
    exact hf
  cases step with
  | write activity value =>
    have hw := hrun .scalar activity _ (run_writeTo_of_gone (w := u) hg value)
    exact ⟨result_of_error hw, (congrArg Writer.phase (after_of_error hw)).trans hu⟩
  | begin kind activity shape =>
    have hw := hrun kind activity _ (run_openAt_of_gone (w := u) hg shape)
    exact ⟨result_of_error hw, (congrArg Writer.phase (after_of_error hw)).trans hu⟩
  | beginScope activity code =>
    have hw : (openScope activity code).run p.writer = _ :=
      hrun .scalar activity _ (run_openScopeAt_of_gone (w := u) hg code)
    refine ⟨?_, ?_⟩
    · rw [result, result_of_error hw]
      rfl
    · simp only [apply, hw]
      exact hu
  | name | checkArray | finish | drop | endScope | failScope | fail | flush | close
  | setEscapes => exact hv.elim

/-- Closing where `fresh` containers have begun since the last flush. Those end, innermost
first, each with the length of everything from its length field on. Then closing fails with
the offset of the next one, and if there is none it goes well. -/
def ClosesUnless (fresh : Nat) (p : Progress) : Prop :=
  let w := p.writer
  let q := (close.apply p).writer
  (∀ i c, i < fresh → w.containers[i]? = some c →
    ((q.sink.held ++ q.buffered).drop (w.sink.held.length + (c.header - w.buffer.gone))).take 4 =
      lengthField (w.buffer.size + (i + 1) - c.header)) ∧
  match w.containers[fresh]? with
  | none => close.result p = .ok () ∧ q.phase = .closed
  | some c => close.result p = .error ⟨.alreadyFlushed c.header, none⟩ ∧ q.phase = .failed

theorem closesUnless_of_closing {kept outer : List Container}
    (h : p.writer.Closing kept outer) : ClosesUnless kept.length p := by
  obtain ⟨b, bs, hall, hheld, hclose⟩ := exists_close h
  have hresult : close.result p = Action.close.result p.writer := rfl
  have happly : (close.apply p).writer = Action.close.after p.writer := rfl
  have hnext : p.writer.containers[kept.length]? = outer.head? := by
    rw [h.opens, List.getElem?_append_right (Nat.le_refl _), Nat.sub_self, List.head?_eq_getElem?]
  rw [ClosesUnless, hresult, happly, hnext]
  refine ⟨fun i c hi hget => ?_, hclose⟩
  rw [h.opens, List.getElem?_append_left hi] at hget
  have hfilled := hall.filled i c.header (by rw [List.getElem?_map, hget]; rfl)
  obtain ⟨-, -, hslice⟩ := hfilled.append bs
  rw [hheld, List.drop_length_add_append, ← hall.gone]
  exact hslice

end Step

/-! ## The ledger -/

namespace Ledger

/-- How many containers, counted from the innermost, have begun since the last flush. -/
def fresh (l : Ledger) : Nat := (l.accounts.takeWhile fun a => !a.flushed).length

namespace Agrees

variable {p : Progress} {l : Ledger}

/-- The innermost container has an account. -/
theorem exists_account (h : l.Agrees p) {c : Container} {containers : List Container}
    (hc : p.writer.containers = c :: containers) :
    ∃ a, l.accounts.head? = some a ∧ a.flushed = decide (c.header < p.writer.buffer.gone) := by
  have hflags := h.flags
  rw [hc, Ledger.flags] at hflags
  cases ha : l.accounts with
  | nil => simp [ha] at hflags
  | cons a accounts =>
    rw [ha] at hflags
    exact ⟨a, rfl, (List.cons.inj hflags).1⟩

/-- If the length field of a container has left, so have those of the containers around it. -/
theorem left_of_head {containers : List Container} {gone : Nat}
    (ha : containers.Pairwise fun inner outer => outer.header + 4 ≤ inner.header)
    (hf : ∀ c ∈ containers.head?, c.header < gone) : ∀ c ∈ containers, c.header < gone := by
  cases containers with
  | nil => nofun
  | cons c outer =>
    have hfirst : c.header < gone := hf c rfl
    refine List.forall_mem_cons.mpr ⟨hfirst, fun d hm => ?_⟩
    have hle := (List.pairwise_cons.mp ha).1 d hm
    omega

/-- The containers that have begun since the last flush are those whose length fields are
still here, and no others lie between them. -/
theorem exists_fresh (h : l.Agrees p) (hc : p.writer.Consistent) :
    ∃ kept outer, p.writer.containers = kept ++ outer ∧ kept.length = l.fresh ∧
      (∀ c ∈ kept, p.writer.buffer.gone ≤ c.header) ∧
      (∀ c ∈ outer, c.header < p.writer.buffer.gone) ∧
      ∀ a ∈ l.accounts.drop l.fresh, a.flushed = true := by
  let gone := p.writer.buffer.gone
  let here : Container → Bool := fun c => !decide (c.header < gone)
  have hflags : l.accounts.map Account.flushed =
      p.writer.containers.map fun c => decide (c.header < gone) := by
    have hflags := h.flags
    rw [List.map_map] at hflags
    exact hflags
  obtain ⟨kept, hkept⟩ : ∃ kept, p.writer.containers.takeWhile here = kept := ⟨_, rfl⟩
  obtain ⟨outer, houter⟩ : ∃ outer, p.writer.containers.dropWhile here = outer := ⟨_, rfl⟩
  have hsplit : p.writer.containers = kept ++ outer := by
    rw [← hkept, ← houter, List.takeWhile_append_dropWhile]
  have hlength : kept.length = l.fresh := by
    have htake := congrArg (fun bs : List Bool => (bs.takeWhile fun b => !b).length) hflags
    simp only [List.takeWhile_map, List.length_map] at htake
    rw [← hkept]
    exact htake.symm
  have hleft : ∀ c ∈ outer, c.header < gone := by
    have hapart := hc.apart
    rw [hsplit] at hapart
    refine left_of_head (List.pairwise_append.mp hapart).2.1 fun c hm => ?_
    have hhead := @List.head?_dropWhile_not _ here p.writer.containers
    rw [houter, show outer.head? = some c from hm] at hhead
    simpa [here] using hhead
  refine ⟨kept, outer, hsplit, hlength, fun c hm => ?_, hleft, fun a ha => ?_⟩
  · rw [← hkept] at hm
    have hstays := List.all_eq_true.mp List.all_takeWhile c hm
    simpa [here] using hstays
  · have hmem : a.flushed ∈ (l.accounts.map Account.flushed).drop l.fresh := by
      rw [← List.map_drop]
      exact List.mem_map_of_mem ha
    rw [hflags, ← List.map_drop, ← hlength, hsplit, List.drop_left] at hmem
    obtain ⟨c, hm, hflag⟩ := List.mem_map.mp hmem
    rw [← hflag]
    exact decide_eq_true (hleft c hm)

variable (h : l.Agrees p) (hc : p.writer.Consistent) (hr : p.writer.phase = .running)

include h hc hr

theorem ending {shape : Shape} {rest : List Expectation} {c : Container}
    {containers : List Container} (he : p.writer.expectations = shape.expectation :: rest)
    (hcs : p.writer.containers = c :: containers) (hl : p.writer.buffer.size + 1 < lengthBound) :
    p.writer.Ending shape rest c containers :=
  ⟨hr, h.keeps, he, hcs, hc.written c (by rw [hcs]; exact List.mem_cons_self), hl⟩

theorem endsUnless_finish {shape : Shape} {rest : List Expectation}
    (he : p.writer.expectations = shape.expectation :: rest)
    (hl : p.writer.buffer.size + 1 < lengthBound) :
    ∃ c a, p.writer.containers.head? = some c ∧ l.accounts.head? = some a ∧
      Step.EndsUnless a.flushed c.header p (.finish shape) := by
  obtain ⟨c, containers, hcs, -⟩ := hc.exists_cons he
  obtain ⟨a, ha, hflag⟩ := h.exists_account hcs
  exact ⟨c, a, by rw [hcs]; rfl, ha, Step.endsUnless_finish (h.ending hc hr he hcs hl) hflag⟩

theorem endsUnless_endScope {mark : ScopeMark} {scopes : List ScopeMark}
    {rest : List Expectation} (hs : p.scopes = mark :: scopes)
    (he : p.writer.expectations = .name :: rest) (hd : mark.depth = rest.length + 1)
    (hl : p.writer.buffer.size + 1 < lengthBound) :
    ∃ c a, p.writer.containers.head? = some c ∧ l.accounts.head? = some a ∧
      Step.EndsUnless a.flushed c.header p .endScope ∧
      (a.flushed = false → (Step.endScope.apply p).writer.buffer.Holds mark.start
        (lengthField ((Step.endScope.apply p).writer.buffer.size - mark.start))) := by
  obtain ⟨c, containers, hcs, -, hlength⟩ := hc.exists_cons he
  obtain ⟨a, ha, hflag⟩ := h.exists_account hcs
  have hscopes := h.scopes
  rw [hs, hcs, List.map_cons] at hscopes
  obtain ⟨hm, hg, -⟩ := hscopes.of_depth (by rw [hd, List.length_map, hlength])
  have hending := h.ending hc hr (show _ = Shape.document.expectation :: rest from he) hcs hl
  exact ⟨c, a, by rw [hcs]; rfl, ha, Step.endsUnless_endScope hs hending hd hg hm hflag⟩

theorem closesUnless (hsink : p.writer.sink.TakesAll) (hauto : p.writer.options.autoClose = true)
    (hv : ∀ rest, p.writer.expectations ≠ .value :: rest)
    (hl : p.writer.buffer.size + p.writer.containers.length < lengthBound) :
    Step.ClosesUnless l.fresh p ∧ ∀ a ∈ l.accounts.drop l.fresh, a.flushed = true := by
  obtain ⟨kept, outer, hcs, hlength, hkept, houter, hflushed⟩ := h.exists_fresh hc
  have he := hc.expectations_eq hv
  have hapart := hc.apart
  have hwritten := hc.written
  rw [hcs] at he hapart hwritten hl
  rw [← hlength] at hflushed ⊢
  exact ⟨Step.closesUnless_of_closing
    ⟨hr, h.keeps, hauto, hsink, he, hcs, hapart, hwritten, hkept, houter, hl⟩, hflushed⟩

theorem failsUnless {step : Step} (hv : step.BeginsValue) :
    (∀ start, p.writer.slot = some start → l.nameFlushed = true →
      step.result p = .error ⟨.alreadyFlushed start, none⟩ ∧
        (step.apply p).writer.phase = .failed) ∧
    (p.writer.slot = none ∨ l.nameFlushed = false →
      ∀ e offset, step.result p = .error e → e.cause ≠ .alreadyFlushed offset) := by
  refine ⟨fun start hs hn => ?_, fun hn e offset he => ?_⟩
  · exact Step.fails_of_gone hc hr hv hs ((h.named start hs).mp hn)
  · rcases Step.misses_of_beginsValue hc hv he with hdirect | ⟨start, hs, hg, rfl⟩
    · exact hdirect.ne_alreadyFlushed offset
    · have hflushed := (h.named start hs).mpr hg
      rcases hn with hn | hn
      · exact absurd (hn.symm.trans hs) nofun
      · exact absurd (hn.symm.trans hflushed) Bool.false_ne_true

end Agrees

end Ledger

/-- A session that keeps its output, over a sink that takes everything, is flushed anywhere
and any number of times, also in scopes that leave the end of their document to
`endScope`. As long as the output is short enough for its lengths and the session runs:

* the end of a container, where it may come, goes well exactly if no flush has come since
  the container began, and then its length field counts everything from there on; so does
  the end of a scope, and then the length of its value is exact too. Otherwise it fails with
  the offset of the length field and the session has failed;
* closing, where all containers may end, ends those that have begun since the last flush,
  with their lengths, and goes well if those are all. All containers around them have been
  flushed, and it fails with the offset of the first of these;
* a value fails with the offset of its type byte, and the session with it, if a flush has
  come since its field name. If none has, nothing that it needs has left. -/
theorem ends_fail_exactly_after_flush {sink : Sink} (ht : sink.TakesAll) {options : Options}
    (hs : options.streaming = false) (storage : Bytes) (steps : List Step)
    (hk : Step.Throughout Step.SparesScope ⟨Writer.onStorage sink options storage, []⟩ steps) :
    let start : Progress := ⟨Writer.onStorage sink options storage, []⟩
    let p := Step.run start steps
    let w := p.writer
    let l := Ledger.run {} start steps
    w.phase = .running →
      (∀ shape rest, w.expectations = shape.expectation :: rest →
        w.buffer.size + 1 < lengthBound →
        ∃ c a, w.containers.head? = some c ∧ l.accounts.head? = some a ∧
          Step.EndsUnless a.flushed c.header p (.finish shape)) ∧
      (∀ mark scopes rest, p.scopes = mark :: scopes → w.expectations = .name :: rest →
        mark.depth = rest.length + 1 → w.buffer.size + 1 < lengthBound →
        ∃ c a, w.containers.head? = some c ∧ l.accounts.head? = some a ∧
          Step.EndsUnless a.flushed c.header p .endScope ∧
          (a.flushed = false → (Step.endScope.apply p).writer.buffer.Holds mark.start
            (lengthField ((Step.endScope.apply p).writer.buffer.size - mark.start)))) ∧
      (w.options.autoClose = true → (∀ rest, w.expectations ≠ .value :: rest) →
        w.buffer.size + w.containers.length < lengthBound →
        Step.ClosesUnless l.fresh p ∧ ∀ a ∈ l.accounts.drop l.fresh, a.flushed = true) ∧
      ∀ step : Step, step.BeginsValue →
        (∀ start, w.slot = some start → l.nameFlushed = true →
          step.result p = .error ⟨.alreadyFlushed start, none⟩ ∧
            (step.apply p).writer.phase = .failed) ∧
        (w.slot = none ∨ l.nameFlushed = false →
          ∀ e offset, step.result p = .error e → e.cause ≠ .alreadyFlushed offset) := by
  intro start p w l hr
  have hconsistent : w.Consistent :=
    Step.consistent_run (Writer.consistent_onStorage sink options storage) steps
  have hagrees : l.Agrees p := Ledger.agrees_run sink hs storage hk hr
  exact ⟨fun shape rest he hl => hagrees.endsUnless_finish hconsistent hr he hl,
    fun mark scopes rest hs he hd hl => hagrees.endsUnless_endScope hconsistent hr hs he hd hl,
    fun hauto hv hl => hagrees.closesUnless hconsistent hr
      (Step.takesAll_run ht options storage steps) hauto hv hl,
    fun step hv => hagrees.failsUnless hconsistent hr hv⟩

/-- A document is flushed when it has just begun, and an array in it afterwards begins: the
array ends, and closing fails at the offset of the document's length field. -/
theorem ends_fail_exactly_after_flush_outer :
    let steps : List Step := [.begin .container .startObject .document, .flush, .name "a",
      .begin .container .startArray .array, .write .number (.int32 1)]
    let p := Step.run ⟨Writer.onStorage {} {} [], []⟩ steps
    Step.EndsUnless false 7 p (.finish .array) ∧
      Step.close.result p = .error ⟨.alreadyFlushed 0, none⟩ := by
  intro steps p
  have h := @ends_fail_exactly_after_flush {} ⟨rfl, by decide, rfl⟩ {} rfl [] steps
    ⟨trivial, trivial, trivial, trivial, trivial, trivial⟩ (by decide +kernel)
  have hexpects : p.writer.expectations = [.element, .name] := by decide +kernel
  have hopens : p.writer.containers = [⟨7, some 1⟩, ⟨0, none⟩] := by decide +kernel
  have hledger : Ledger.run {} ⟨Writer.onStorage {} {} [], []⟩ steps =
      ⟨[⟨1, false⟩, ⟨1, true⟩], false⟩ := by decide +kernel
  rw [hledger] at h
  constructor
  · obtain ⟨c, a, hc, ha, hends⟩ := h.1 .array [.name] hexpects (by decide +kernel)
    have hinner : p.writer.containers.head? = some c := hc
    rw [hopens] at hinner
    cases ha
    cases hinner
    exact hends
  · have hcloses := (h.2.2.1 (by decide +kernel) (fun rest => by rw [hexpects]; nofun)
      (by decide +kernel)).1.2
    rw [hopens] at hcloses
    exact hcloses.1

end BsonWriter
