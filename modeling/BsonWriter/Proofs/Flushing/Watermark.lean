import BsonWriter.Proofs.Run.Ledger
import BsonWriter.Proofs.Walk.Grammar

/-!
Which length fields and type bytes have left. A session that keeps its output and still
runs has handed over everything up to the last flush and nothing after it, so what the
ledger says of a container, or of the name that waits for its value, can be read off their
offsets (`Ledger.agrees_run`). Scopes are laid between the containers (`Bracketed`): the
length field of the value of a scope lies in front of that of its document, and no flush
comes between them.
-/

namespace BsonWriter

/-- The scopes that are open are those of some of the containers at the offsets `headers`,
in the same order. -/
inductive Bracketed (gone : Nat) : List ScopeMark → List Nat → Prop
  | nil : Bracketed gone [] []
  | plain {marks : List ScopeMark} {header : Nat} {headers : List Nat} :
    Bracketed gone marks headers → Bracketed gone marks (header :: headers)
  | scope {mark : ScopeMark} {marks : List ScopeMark} {header : Nat} {headers : List Nat} :
    mark.depth = headers.length + 1 → mark.start + 4 ≤ header →
    gone ≤ mark.start ∨ header < gone → Bracketed gone marks headers →
    Bracketed gone (mark :: marks) (header :: headers)

namespace Bracketed

variable {gone : Nat} {mark : ScopeMark} {marks : List ScopeMark} {header : Nat}
  {headers : List Nat}

/-- A scope has a container. -/
theorem depth_le (h : Bracketed gone marks headers) (hm : marks.head? = some mark) :
    mark.depth ≤ headers.length := by
  induction h with
  | nil => cases hm
  | plain _ ih => exact Nat.le_succ_of_le (ih hm)
  | scope hd =>
    obtain rfl := Option.some.inj hm
    exact Nat.le_of_eq hd

/-- What has not left and lies in front of everything leaves. -/
theorem flush (h : Bracketed gone marks headers) {size : Nat}
    (hs : ∀ header ∈ headers, header < size) : Bracketed size marks headers := by
  induction h with
  | nil => exact .nil
  | plain _ ih => exact .plain (ih fun header hm => hs header (List.mem_cons_of_mem _ hm))
  | scope hd hm _ _ ih =>
    exact .scope hd hm (.inr (hs _ List.mem_cons_self))
      (ih fun header hm => hs header (List.mem_cons_of_mem _ hm))

/-- A container inside the innermost scope ends. -/
theorem tail (h : Bracketed gone marks (header :: headers))
    (hm : ∀ mark ∈ marks.head?, mark.depth < headers.length + 1) :
    Bracketed gone marks headers := by
  cases h with
  | plain h => exact h
  | scope hd => exact absurd (hm _ rfl) (by omega)

/-- The document of the innermost scope is the container at its depth. -/
theorem of_depth (h : Bracketed gone (mark :: marks) (header :: headers))
    (hd : mark.depth = headers.length + 1) :
    mark.start + 4 ≤ header ∧ (gone ≤ mark.start ∨ header < gone) ∧
      Bracketed gone marks headers := by
  cases h with
  | plain h => exact absurd (h.depth_le rfl) (by omega)
  | scope _ hm hg h => exact ⟨hm, hg, h⟩

end Bracketed

namespace Step

/-- The step is not the end of a scope's document, which the scope itself will end. -/
def SparesScope (p : Progress) : Step → Prop
  | finish shape => (finish shape).Fails p ∨
      ∀ mark ∈ p.scopes.head?, mark.depth < p.writer.expectations.length
  | _ => True

end Step

namespace Ledger

/-- Which containers have been flushed since they began. -/
def flags (l : Ledger) : List Bool := l.accounts.map Account.flushed

@[simp] theorem flags_value (l : Ledger) : l.value.flags = l.flags := by
  obtain ⟨accounts, nameFlushed⟩ := l
  cases accounts <;> rfl

@[simp] theorem flags_opened (l : Ledger) : l.opened.flags = false :: l.flags := rfl

@[simp] theorem flags_ended (l : Ledger) : l.ended.flags = l.flags.tail :=
  List.map_tail

@[simp] theorem flags_flush (l : Ledger) : l.flush.flags = l.flags.map fun _ => true := by
  simp only [flags, flush, List.map_map]
  rfl

/-- What the ledger says of flushes is what has left. -/
structure Agrees (p : Progress) (l : Ledger) : Prop where
  keeps : p.writer.options.streaming = false
  flags : l.flags = (p.writer.containers.map Container.header).map fun header =>
    decide (header < p.writer.buffer.gone)
  named : ∀ start, p.writer.slot = some start →
    (l.nameFlushed = true ↔ start < p.writer.buffer.gone)
  scopes : Bracketed p.writer.buffer.gone p.scopes (p.writer.containers.map Container.header)

theorem agrees_start (sink : Sink) {options : Options} (hs : options.streaming = false)
    (storage : Bytes) : Agrees ⟨Writer.onStorage sink options storage, []⟩ {} :=
  ⟨hs, rfl, nofun, .nil⟩

namespace Agrees

variable {p : Progress} {l l' : Ledger} {w : Writer} {scopes : List ScopeMark}

/-- A change by which nothing leaves. -/
theorem change (h : l.Agrees p) {headers : List Nat} (ho : w.options = p.writer.options)
    (hg : w.buffer.gone = p.writer.buffer.gone)
    (hc : w.containers.map Container.header = headers)
    (hf : l'.flags = headers.map fun header => decide (header < p.writer.buffer.gone))
    (hn : ∀ start, w.slot = some start → (l'.nameFlushed = true ↔ start < p.writer.buffer.gone))
    (hs : Bracketed p.writer.buffer.gone scopes headers) : l'.Agrees ⟨w, scopes⟩ := by
  refine ⟨(congrArg Options.streaming ho).trans h.keeps, ?_, ?_, ?_⟩
  · rw [hf, hg, hc]
  · rw [hg]
    exact hn
  · rw [hg, hc]
    exact hs

/-- A name has been written after everything that has left. -/
theorem name (h : l.Agrees p) {rest : List Expectation}
    (hw : Writer.Extends { p.writer with
      expectations := .value :: rest, slot := some p.writer.buffer.size } w) :
    Agrees ⟨w, p.scopes⟩ { l with nameFlushed := false } := by
  refine h.change hw.options (hw.stays h.keeps) (congrArg _ hw.containers) h.flags
    (fun start hs => ?_) h.scopes
  have hstart : some p.writer.buffer.size = some start := hw.slot.symm.trans hs
  have hle := p.writer.buffer.gone_le_size
  rw [← Option.some.inj hstart]
  exact iff_of_false Bool.false_ne_true (by omega)

/-- A value has begun, and no type byte waits any more. -/
theorem value (h : l.Agrees p) {expectations : List Expectation}
    (hw : Writer.Extends { p.writer with
      expectations, containers := Container.taken p.writer.containers, slot := none } w) :
    l.value.Agrees ⟨w, p.scopes⟩ := by
  refine h.change hw.options (hw.stays h.keeps) ?_ ((flags_value l).trans h.flags)
    (fun start hs => ?_) h.scopes
  · rw [hw.containers, Container.header_taken]
  · cases hw.slot.symm.trans hs

/-- A container has begun after everything that has left. -/
theorem opened (h : l.Agrees p) {shape : Shape}
    (hs : Bracketed p.writer.buffer.gone scopes
      (p.writer.buffer.size :: p.writer.containers.map Container.header)) :
    l.opened.Agrees ⟨p.writer.opened shape, scopes⟩ := by
  have hle := p.writer.buffer.gone_le_size
  refine h.change rfl rfl ?_ ?_ h.named hs
  · rw [Writer.opened, List.map_cons, Container.header_start]
  · rw [flags_opened, h.flags, List.map_cons, decide_eq_false (by omega)]

/-- A container has ended. -/
theorem ended (h : l.Agrees p) {rest : List Expectation} {container : Container}
    {containers : List Container} (hc : p.writer.containers = container :: containers)
    (hw : Writer.Extends { p.writer with expectations := rest, containers } w)
    (hs : Bracketed p.writer.buffer.gone scopes (containers.map Container.header)) :
    l.ended.Agrees ⟨w, scopes⟩ := by
  refine h.change hw.options (hw.stays h.keeps) (congrArg _ hw.containers) ?_ ?_ hs
  · rw [flags_ended, h.flags, hc]
    rfl
  · rw [hw.slot]
    exact h.named

theorem flush (h : l.Agrees p) (hc : p.writer.Consistent) (sink : Sink) :
    l.flush.Agrees ⟨{ p.writer with sink, buffer := p.writer.buffer.drained }, p.scopes⟩ := by
  have hleft : ∀ header ∈ p.writer.containers.map Container.header,
      header < p.writer.buffer.size := by
    intro header hm
    obtain ⟨c, hmem, rfl⟩ := List.mem_map.mp hm
    have hwritten := hc.written c hmem
    omega
  refine ⟨h.keeps, ?_, fun start hs => ?_, h.scopes.flush hleft⟩
  · rw [flags_flush, h.flags, List.map_map]
    exact List.map_congr_left fun header hm => (decide_eq_true (hleft header hm)).symm
  · exact ⟨fun _ => hc.slot_lt start hs, fun _ => rfl⟩

end Agrees

theorem agrees_after {p : Progress} {l : Ledger} {step : Step} (hc : p.writer.Consistent)
    (hs : step.SparesScope p) (hf : ¬step.Fails p) (hm : step.Moves p (step.apply p))
    (h : l.Agrees p) : (l.after p step).Agrees (step.apply p) := by
  have hlength : p.writer.expectations.length = p.writer.containers.length := hc.aligned.length_eq
  have hspares : ∀ shape, step = .finish shape →
      ∀ mark ∈ p.scopes.head?, mark.depth < p.writer.expectations.length := by
    rintro shape rfl
    exact hs.resolve_left hf
  rw [after, if_neg hf]
  generalize step.apply p = q at hm
  cases hm with
  | name _ hw => exact h.name hw
  | checkArray => exact h
  | setEscapes => exact ⟨h.keeps, h.flags, h.named, h.scopes⟩
  | write _ hw => exact h.value hw
  | begin _ hw => exact (h.value hw).opened (h.value hw).scopes.plain
  | @beginScope _ _ expectations start w ha hw hsize hroom =>
    have hgone : w.buffer.gone = p.writer.buffer.gone := hw.stays h.keeps
    have hle := p.writer.buffer.gone_le_size
    have hdepth : expectations.length + 1 = (w.containers.map Container.header).length + 1 := by
      rw [Token.length_admitValue ha, hlength, hw.containers, Container.header_taken,
        List.length_map]
    exact (h.value hw).opened (.scope hdepth hroom (.inl (show w.buffer.gone ≤ start by omega))
      (h.value hw).scopes)
  | @finish shape rest container containers w he hopen hw =>
    refine h.ended hopen hw ?_
    have hscopes := h.scopes
    rw [hopen] at hscopes hlength
    refine hscopes.tail fun mark hm => ?_
    rw [List.length_map, ← List.length_cons, ← hlength]
    exact hspares shape rfl mark hm
  | @endScope mark scopes rest container containers w hfirst he hd hopen hw =>
    rw [done, if_neg (by simp [hfirst])]
    refine h.ended hopen hw ?_
    have hscopes := h.scopes
    rw [hopen, hfirst] at hscopes
    rw [hopen, he, List.length_cons, List.length_cons] at hlength
    refine (hscopes.of_depth ?_).2.2
    rw [hd, List.length_map]
    omega
  | noScope hnone =>
    rw [done, if_pos hnone]
    exact h
  | flush => exact h.flush hc _

/-- In every run that leaves the session running, the ledger agrees with what has left. -/
theorem agrees_run (sink : Sink) {options : Options} (hs : options.streaming = false)
    (storage : Bytes) {steps : List Step}
    (hk : Step.Throughout Step.SparesScope ⟨Writer.onStorage sink options storage, []⟩ steps)
    (hr : (Step.run ⟨Writer.onStorage sink options storage, []⟩ steps).writer.phase = .running) :
    (Ledger.run {} ⟨Writer.onStorage sink options storage, []⟩ steps).Agrees
      (Step.run ⟨Writer.onStorage sink options storage, []⟩ steps) :=
  @run_induction (fun p l => l.Agrees p) Step.SparesScope
    (fun _ _ _ hc hs hf hm h => agrees_after hc hs hf hm h)
    ⟨Writer.onStorage sink options storage, []⟩ {}
    (Writer.consistent_onStorage sink options storage) (agrees_start sink hs storage) steps hk hr

end Ledger

end BsonWriter
