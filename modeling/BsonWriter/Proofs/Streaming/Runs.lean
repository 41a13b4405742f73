import BsonWriter.Proofs.Streaming.Steps

/-!
Twins along a run. A step that is no flush reports the same in both sessions and
leaves them twins (`Progress.Twins.apply`), and so does a run (`Progress.Twins.run`).
The length fields are those of all containers and scopes that have been open on the
way.
-/

namespace BsonWriter

open BsonWriter.Action
open BsonWriter.Writer (Outgrown not_outgrown)

/-- The length fields of what is open: those of containers, and those of code with a
scope. -/
def Progress.lengthFields (p : Progress) : List Nat :=
  p.writer.containers.map Container.header ++ p.scopes.map ScopeMark.start

namespace Step

/-- The length fields of whatever is open at some point of a run. -/
def lengthFields (p : Progress) : List Step → List Nat
  | [] => p.lengthFields
  | step :: rest => p.lengthFields ++ lengthFields (step.apply p) rest

/-- At some point of the run a failed session is closed, and what it holds given up. -/
def GivesUp (p : Progress) : List Step → Prop
  | [] => False
  | step :: rest => step = .close ∧ p.writer.phase = .failed ∨ GivesUp (step.apply p) rest

instance decidableGivesUp : (p : Progress) → (steps : List Step) → Decidable (GivesUp p steps)
  | _, [] => inferInstanceAs (Decidable False)
  | p, step :: rest =>
    have := decidableGivesUp (step.apply p) rest
    inferInstanceAs (Decidable (step = .close ∧ p.writer.phase = .failed ∨
      GivesUp (step.apply p) rest))

/-- The step writes a scalar or ends a container or a scope. -/
def Completes (p : Progress) : Step → Prop
  | write .. | finish _ => True
  | endScope => p.scopes ≠ []
  | _ => False

theorem lengthFields_subset (p : Progress) (steps : List Step) :
    p.lengthFields ⊆ lengthFields p steps := by
  cases steps with
  | nil => exact List.Subset.refl _
  | cons step rest => exact List.subset_append_left _ _

end Step

/-- Two sessions under way of which one streams, with the same scopes. -/
structure Progress.Twins (lost : Prop) (before before' : Bytes) (fields : List Nat)
    (p q : Progress) : Prop where
  twin : Twin lost before before' fields p.writer q.writer
  scopes : q.scopes = p.scopes
  marked : ∀ m ∈ p.scopes, m.start ∈ fields
  consistent : p.writer.Consistent

/-- The fields so far, with those of the containers that are open in the end. -/
theorem Action.Paired.current {α : Type} {a : Action α} {w v : Writer} {lost : Prop}
    {before before' : Bytes} {fields : List Nat}
    (h : Paired Outgrown a w v (fun _ => Twin lost before before' fields)
      (Twin lost before before' fields)) : Paired Outgrown a w v
      (fun _ w' => Twin lost before before' (w'.containers.map Container.header ++ fields) w')
      (fun w' => Twin lost before before' (w'.containers.map Container.header ++ fields) w') :=
  h.mono (fun _ _ _ hw => hw.current) fun _ _ hw => hw.current

namespace Progress.Twins

variable {lost gone : Prop} {before before' : Bytes} {fields : List Nat} {p q : Progress}

theorem opened (h : Twins lost before before' fields p q) : p.lengthFields ⊆ fields := by
  intro f hf
  rcases List.mem_append.mp hf with hf | hf
  · obtain ⟨c, hc, rfl⟩ := List.mem_map.mp hf
    exact h.twin.listed c hc
  · obtain ⟨m, hm, rfl⟩ := List.mem_map.mp hf
    exact h.marked m hm

theorem congr (h : Twins lost before before' fields p q) {others : List Nat}
    (ho : ∀ f, f ∈ others ↔ f ∈ fields) : Twins lost before before' others p q :=
  ⟨h.twin.congr ho, h.scopes, fun m hm => (ho _).mpr (h.marked m hm), h.consistent⟩

/-- What is open is among the fields already. -/
theorem absorb (h : Twins lost before before' fields p q) :
    Twins lost before before' (p.lengthFields ++ fields) p q :=
  h.congr fun _ => ⟨fun hf => (List.mem_append.mp hf).elim (fun hf => h.opened hf) id,
    fun hf => List.mem_append_right _ hf⟩

/-- An action that begins no scope leads from twins to twins. -/
theorem of_paired (h : Twins lost before before' fields p q) {a : Action Unit}
    (ha : Paired Outgrown a p.writer q.writer
      (fun _ w' => Twin gone before before' (w'.containers.map Container.header ++ fields) w')
      (fun w' => Twin gone before before' (w'.containers.map Container.header ++ fields) w'))
    {scopes : List ScopeMark} (hs : scopes ⊆ p.scopes) (hc : (a.after p.writer).Consistent)
    (hb : (a.after p.writer).buffer.size < lengthBound) :
    a.result q.writer = a.result p.writer ∧
      Twins gone before before' (lengthFields ⟨a.after p.writer, scopes⟩ ++ fields)
        ⟨a.after p.writer, scopes⟩ ⟨a.after q.writer, scopes⟩ := by
  obtain ⟨hresult, htwin⟩ := ha.result (not_outgrown hb)
  have hmarked : ∀ m ∈ scopes, m.start ∈ fields := fun m hm => h.marked m (hs hm)
  refine ⟨hresult, htwin.congr fun f => ?_, rfl, fun m hm => ?_, hc⟩
  · have hstarts : f ∈ scopes.map ScopeMark.start → f ∈ fields := by
      intro hf
      obtain ⟨m, hm, rfl⟩ := List.mem_map.mp hf
      exact hmarked m hm
    simp only [lengthFields, List.mem_append]
    rw [or_assoc, or_iff_right_of_imp hstarts]
  · exact List.mem_append_right _ (hmarked m hm)

section Scopes

variable {w v : Writer} {scopes : List ScopeMark}
  (h : Twins lost before before' fields ⟨w, scopes⟩ ⟨v, scopes⟩)
  (ht : Twin gone before before' fields w v)

include h ht

/-- The beginning of a scope puts the same mark upon the scopes of both. -/
theorem beginScope (activity : Activity) (code : String)
    (hb : ((Step.beginScope activity code).apply ⟨w, scopes⟩).writer.buffer.size < lengthBound) :
    let step := Step.beginScope activity code
    step.result ⟨v, scopes⟩ = step.result ⟨w, scopes⟩ ∧
      Twins gone before before' ((step.apply ⟨w, scopes⟩).lengthFields ++ fields)
        (step.apply ⟨w, scopes⟩) (step.apply ⟨v, scopes⟩) := by
  intro step
  have hc := Step.consistent_apply h.consistent step
  rw [Step.apply_beginScope] at hb hc
  obtain ⟨hresult, hrelated⟩ :=
    (twin_openScope ht h.consistent activity code).related (not_outgrown hb)
  rw [Step.apply_beginScope, Step.apply_beginScope, Step.result, Step.result, hresult]
  refine ⟨rfl, ?_⟩
  dsimp only at hrelated hc ⊢
  cases hr : (Step.openScope activity code).result w with
  | error e =>
    rw [hr] at hrelated
    have htwins : Twins gone before before' fields ⟨_, scopes⟩ ⟨_, scopes⟩ :=
      ⟨hrelated, rfl, h.marked, hc⟩
    exact htwins.absorb
  | ok mark =>
    rw [hr] at hrelated
    have htwins : Twins gone before before' _ ⟨_, mark :: scopes⟩ ⟨_, mark :: scopes⟩ :=
      ⟨hrelated, rfl, fun m hm => ?_, hc⟩
    · refine htwins.absorb.congr fun f => ?_
      simp only [lengthFields, List.map_cons, List.mem_append, List.mem_cons]
      constructor
      · rintro (hm | hm)
        · exact .inl hm
        · exact .inr (.inr (.inr hm))
      · rintro (hm | hm | hm | hm)
        · exact .inl hm
        · exact .inl (.inl hm)
        · exact .inl (.inr (.inl hm))
        · exact .inr hm
    · rcases List.mem_cons.mp hm with rfl | hm
      · exact List.mem_append_right _ List.mem_cons_self
      · exact List.mem_append_right _ (List.mem_cons_of_mem _ (h.marked m hm))

/-- Without a scope to end nothing happens. -/
theorem endScope (hb : (Step.endScope.apply ⟨w, scopes⟩).writer.buffer.size < lengthBound) :
    Step.endScope.result ⟨v, scopes⟩ = Step.endScope.result ⟨w, scopes⟩ ∧
      Twins gone before before' ((Step.endScope.apply ⟨w, scopes⟩).lengthFields ++ fields)
        (Step.endScope.apply ⟨w, scopes⟩) (Step.endScope.apply ⟨v, scopes⟩) := by
  have hc := Step.consistent_apply h.consistent .endScope
  cases scopes with
  | nil =>
    have htwins : Twins gone before before' fields ⟨w, []⟩ ⟨v, []⟩ :=
      ⟨ht, rfl, h.marked, h.consistent⟩
    exact ⟨rfl, htwins.absorb⟩
  | cons mark rest =>
    have hpaired := twin_endScope ht h.consistent (h.marked mark List.mem_cons_self)
    exact h.of_paired (hpaired.mono (fun _ _ _ hw => hw.1) fun _ _ hw => hw).current
      (List.subset_cons_self mark rest) hc hb

end Scopes

/-- A step reports the same in both sessions and leaves them twins. -/
theorem apply (h : Twins lost before before' fields p q) {step : Step} (hf : step ≠ .flush)
    (hg : gone ↔ lost ∨ step = .close ∧ p.writer.phase = .failed)
    (hb : (step.apply p).writer.buffer.size < lengthBound) :
    step.result q = step.result p ∧
      Twins gone before before' ((step.apply p).lengthFields ++ fields) (step.apply p)
        (step.apply q) := by
  have hsame := h.scopes
  obtain ⟨v, scopes⟩ := q
  subst hsame
  have hc := Step.consistent_apply h.consistent step
  have hsub := List.Subset.refl p.scopes
  have hstay : step ≠ .close → Twin gone before before' fields p.writer v := fun hs =>
    h.twin.of_iff gone (by simp [hg, hs])
  cases step with
  | name text => exact h.of_paired (twin_fieldName (hstay nofun) text).current hsub hc hb
  | checkArray => exact h.of_paired (twin_checkArray (hstay nofun)).current hsub hc hb
  | write activity value =>
    exact h.of_paired ((twin_write (hstay nofun) h.consistent activity value).mono
      (fun _ _ _ hw => hw.1) fun _ _ hw => hw).current hsub hc hb
  | begin kind activity shape =>
    exact h.of_paired (twin_begin (hstay nofun) h.consistent kind activity shape) hsub hc hb
  | finish shape =>
    exact h.of_paired ((twin_endContainer (hstay nofun) h.consistent shape).mono
      (fun _ _ _ hw => hw.1.1) fun _ _ hw => hw).current hsub hc hb
  | drop activity =>
    exact h.of_paired (twin_drop (hstay nofun) h.consistent activity).current hsub hc hb
  | fail =>
    have hpaired : Paired Outgrown (modify Writer.fail) p.writer v
        (fun _ => Twin gone before before' fields) (Twin gone before before' fields) :=
      paired_modify (hstay nofun).fail
    exact h.of_paired hpaired.current hsub hc hb
  | flush => exact absurd rfl hf
  | close =>
    exact h.of_paired (twin_close h.twin h.consistent (by simp [hg])).current hsub hc hb
  | setEscapes table =>
    have hpaired : Paired Outgrown (setEscapes table) p.writer v
        (fun _ => Twin gone before before' fields) (Twin gone before before' fields) :=
      paired_modify ((hstay nofun).withEscapes table)
    exact h.of_paired hpaired.current hsub hc hb
  | failScope =>
    have hpaired : Paired Outgrown (modify Writer.fail) p.writer v
        (fun _ => Twin gone before before' fields) (Twin gone before before' fields) :=
      paired_modify (hstay nofun).fail
    exact ⟨rfl, (h.of_paired hpaired.current (fun _ => List.mem_of_mem_tail) hc hb).2⟩
  | endScope => exact h.endScope (hstay nofun) hb
  | beginScope activity code => exact h.beginScope (hstay nofun) activity code hb

/-- After a scalar or the end of a container, a streaming session holds nothing back. -/
theorem drained (h : Twins lost before before' fields p q) {step : Step} (hs : step.Completes p)
    (hok : step.result p = .ok ()) (hb : (step.apply p).writer.buffer.size < lengthBound) :
    (step.apply q).writer.buffered = [] := by
  have hread : ∀ {a : Action Unit} {E : Writer → Writer → Prop},
      Paired Outgrown a p.writer q.writer (fun _ _ v => v.buffered = []) E →
      a.result p.writer = .ok () → (a.after p.writer).buffer.size < lengthBound →
      (a.after q.writer).buffered = [] := by
    intro a E hpaired hok hb
    have hrelated := (hpaired.related (not_outgrown hb)).2
    rwa [hok] at hrelated
  cases step with
  | write activity value =>
    exact hread ((twin_write h.twin h.consistent activity value).mono
      (fun _ _ _ hw => hw.2) fun _ _ hw => hw) hok hb
  | finish shape =>
    exact hread ((twin_endContainer h.twin h.consistent shape).mono
      (fun _ _ _ hw => hw.2) fun _ _ hw => hw) hok hb
  | endScope =>
    obtain ⟨v, scopes⟩ := q
    have hsame := h.scopes
    obtain ⟨w, scopes⟩ := p
    subst hsame
    cases scopes with
    | nil => exact absurd rfl hs
    | cons mark rest =>
      exact hread ((twin_endScope h.twin h.consistent (h.marked mark List.mem_cons_self)).mono
        (fun _ _ _ hw => hw.2) fun _ _ hw => hw) hok hb
  | _ => exact hs.elim

/-- A run without a flush leaves them twins. -/
theorem run (h : Twins lost before before' fields p q) {steps : List Step}
    (hf : .flush ∉ steps) (hb : (Step.run p steps).writer.buffer.size < lengthBound) :
    Twins (lost ∨ Step.GivesUp p steps) before before' (Step.lengthFields p steps ++ fields)
      (Step.run p steps) (Step.run q steps) := by
  induction steps generalizing p q lost fields with
  | nil =>
    have hlost : (lost ∨ Step.GivesUp p []) = lost := propext (or_iff_left id)
    rw [hlost]
    exact h.absorb
  | cons step rest ih =>
    rw [List.mem_cons, not_or] at hf
    have hsize := Step.size_le_run (step.apply p) rest
    obtain ⟨-, htwins⟩ := h.apply (Ne.symm hf.1) Iff.rfl (Nat.lt_of_le_of_lt hsize hb)
    have hrun := ih htwins hf.2 hb
    rw [or_assoc] at hrun
    refine hrun.congr fun f => ?_
    have hfirst : f ∈ p.lengthFields → f ∈ fields := fun hm => h.opened hm
    have hnext := @Step.lengthFields_subset (step.apply p) rest f
    simp only [Step.lengthFields, List.mem_append]
    constructor
    · rintro ((hm | hm) | hm)
      · exact .inr (.inr (hfirst hm))
      · exact .inl hm
      · exact .inr (.inr hm)
    · rintro (hm | hm | hm)
      · exact .inl (.inr hm)
      · exact .inl (.inr (hnext hm))
      · exact .inr hm

end Progress.Twins

end BsonWriter
