import BsonWriter.Proofs.Run.Handed

/-!
When every type byte that reaches the sink has its value. It need not: a flush hands
over whatever is here, also a type byte that waits, and so does closing a session
that may leave its containers open. `delivered_type_bytes` says that it depends on
these two alone.
-/

namespace BsonWriter

open BsonWriter.Action

/-- The session and its record agree. -/
structure Trail.Sound (t : Trail) : Prop where
  consistent : t.writer.Consistent
  tracked : Tracked t.reserved (t.progress.scopes.map ScopeMark.start) none t.writer
  passed : ∀ d ∈ t.delivered, d.2 < t.writer.buffer.size

/-- What a step hands over is strict if it heeds what waits. -/
theorem Trail.flowed_apply {t : Trail} (h : t.Sound) (step : Step) :
    Flowed (t.Heeds step) (TypeByte.after t.reserved t.writer step)
      ((step.apply t.progress).scopes.map ScopeMark.start) t.writer
      (step.apply t.progress).writer := by
  obtain ⟨hc, ht, -⟩ := h
  have hstill := Still.refl t.writer
  have hflow : ∀ strict, Flowing strict t.reserved (t.progress.scopes.map ScopeMark.start)
      t.writer t.writer := fun _ => hstill.flowing ht
  cases step with
  | name text =>
    have hy := (tracked_fieldName ht hc text).after
    exact (hy.2.flowing hy.1).flowed
  | checkArray =>
    refine Yields.after (yields_checkArray (fun _ => ?_) ?_)
    · exact (hflow _).flowed.fail
    · exact (hflow _).flowed
  | write activity value =>
    exact (@flowed_take _ _ _ _ _ _ (fun rs _ w => Flowed _ rs _ _ w) ht hc _ _ _
      fun rs slot v hv hs hstill => flowed_writeTo value hv hs hstill).after
  | begin kind activity shape =>
    exact (@flowed_take _ _ _ _ _ _ (fun rs _ w => Flowed _ rs _ _ w) ht hc _ _ _
      fun rs slot v hv hs hstill => flowed_openAt shape hv hs hstill).after
  | finish shape =>
    exact ((flowing_endContainer (hflow _) hc shape).mono (fun _ _ hw => hw.flowed)
      fun _ _ hw => hw).after
  | drop activity =>
    exact (flowed_drop ht activity).after
  | beginScope activity code =>
    have hy := @flowed_take (t.Heeds (.beginScope activity code)) _ _ _ _ _
      (fun rs (mark : ScopeMark) w => Flowed _ rs (mark.start :: _) _ w) ht hc .scalar activity _
      fun rs slot v hv hs hstill => flowed_openScopeAt code hv hs hstill
    simp only [Step.apply]
    split
    · exact hy.of_ok (by assumption)
    · exact hy.of_error (by assumption)
  | endScope =>
    unfold Step.apply
    cases hs : t.progress.scopes with
    | nil =>
      dsimp only
      rw [hs]
      exact ((hs ▸ hflow _).flowed)
    | cons mark rest =>
      have hf := hflow (t.Heeds .endScope)
      rw [hs] at hf
      exact (flowed_endScope hf hc).after
  | failScope =>
    refine (hflow _).flowed.fail.congr ((ht.fail none).mono fun start hm => ?_) rfl (Nat.le_refl _)
    exact List.mem_of_mem_tail (by rwa [← List.map_tail])
  | fail => exact (hflow _).flowed.fail
  | flush => exact (flowed_flush (hflow _) fun hstrict hp => hstrict hp).after
  | close => exact (flowed_close (hflow _) hc fun hstrict hr ha => hstrict hr ha).after
  | setEscapes table =>
    exact (hflow _).flowed.congr (ht.congr rfl (fun _ hm => hm) fun hr => ⟨hr, rfl⟩) rfl
      (Nat.le_refl _)

/-! ## The record of type bytes -/

namespace TypeByte

variable {reserved : List TypeByte} {b : TypeByte} {w w' : Writer}

theorem mem_reserve (h : b ∈ reserve reserved w w') :
    b ∈ reserved ∨ w.buffer.size ≤ b.offset := by
  unfold reserve at h
  split at h
  · rcases List.mem_append.mp h with h | h
    · exact .inl h
    · rw [List.mem_singleton.mp h]
      exact .inr (Nat.le_refl _)
  · exact .inl h

/-- A type byte that a value takes had none before, or is new. -/
theorem mem_take {marks : List Nat} (h : Tracked reserved marks none w) (hc : w.Consistent)
    {kind : ValueKind} {activity : Activity} {type : ElementType}
    (hb : b ∈ take reserved w kind activity type) :
    b ∈ reserved ∨ w.buffer.size ≤ b.offset ∨ (⟨b.offset, none⟩ : TypeByte) ∈ reserved := by
  have ht := (tracked_takePosition h kind activity).and (settled_takePosition hc)
  unfold take at hb
  unfold Yields at ht
  cases hr : (takePosition kind activity).run w with
  | error e v =>
    rw [hr] at hb
    exact (mem_reserve hb).imp id .inl
  | ok slot v =>
    rw [hr] at hb ht
    obtain ⟨c, hcm, ho, ⟨hslot, -⟩ | ⟨-, rfl⟩⟩ := exists_of_assign hb
    · have hnone := ht.1.1.untyped ht.2.running c hcm (.inr hslot)
      rw [ho]
      rcases mem_reserve hcm with hm | hm
      · refine .inr (.inr ?_)
        rw [← hnone]
        exact hm
      · exact .inr (.inl hm)
    · exact (mem_reserve hcm).imp id .inl

/-- No type byte is forgotten. -/
theorem exists_after (h : b ∈ reserved) (w : Writer) (step : Step) :
    ∃ c ∈ after reserved w step, c.offset = b.offset := by
  have hreserve : ∀ w', ∃ c ∈ reserve reserved w w', c.offset = b.offset := by
    intro w'
    unfold reserve
    split
    · exact ⟨b, List.mem_append_left _ h, rfl⟩
    · exact ⟨b, h, rfl⟩
  have htake : ∀ kind activity type, ∃ c ∈ take reserved w kind activity type,
      c.offset = b.offset := by
    intro kind activity type
    unfold take
    split
    · rename_i slot v _
      obtain ⟨c, hc, ho⟩ := hreserve v
      refine ⟨_, List.mem_map_of_mem hc, ?_⟩
      split <;> exact ho
    · exact hreserve _
  cases step with
  | name | drop => exact hreserve _
  | write | begin | beginScope => exact htake _ _ _
  | _ => exact ⟨b, h, rfl⟩

end TypeByte

/-! ## What has been delivered -/

namespace Trail

variable {t : Trail}

theorem exists_delivered (h : t.Sound) (step : Step) : ∃ bs,
    Handed (t.Heeds step) (t.step step).reserved t.writer bs (t.step step).writer.sink ∧
      t.writer.buffer.gone + bs.length ≤ (t.step step).writer.buffer.size ∧
      (t.step step).delivered = t.delivered ++ bs.zipIdx t.writer.buffer.gone := by
  obtain ⟨bs, hb, hle⟩ := (flowed_apply h step).handed
  refine ⟨bs, hb, hle, ?_⟩
  rw [Trail.step, hb.held, List.drop_left]

theorem sound_start (sink : Sink) (options : Options) (storage : Bytes) :
    (start sink options storage).Sound :=
  ⟨Writer.consistent_onStorage sink options storage,
    ⟨by simp [start], by simp [start], by simp [start, Writer.onStorage], by simp [start],
      by simp [start], by simp [start]⟩, by simp [start]⟩

theorem sound_step (h : t.Sound) (step : Step) : (t.step step).Sound := by
  have hf := flowed_apply h step
  refine ⟨Step.consistent_apply h.consistent step, hf.tracked, fun d hd => ?_⟩
  obtain ⟨bs, -, hle, hdelivered⟩ := exists_delivered h step
  rw [hdelivered] at hd
  rcases List.mem_append.mp hd with hd | hd
  · exact Nat.lt_of_lt_of_le (h.passed d hd) hf.grown
  · obtain ⟨hg, hget⟩ := List.mem_zipIdx_iff_le_and_getElem?_sub.mp hd
    have hlt := (List.getElem?_eq_some_iff.mp hget).1
    omega

theorem mem_step (h : t.Sound) {step : Step} {b : TypeByte} (hb : b ∈ (t.step step).reserved) :
    b ∈ t.reserved ∨ t.writer.buffer.size ≤ b.offset ∨
      (⟨b.offset, none⟩ : TypeByte) ∈ t.reserved := by
  cases step with
  | name | drop => exact (TypeByte.mem_reserve hb).imp id .inl
  | write | begin | beginScope => exact TypeByte.mem_take h.tracked h.consistent hb
  | _ => exact .inl hb

/-- A step that heeds what waits hands over no type byte without its value. -/
theorem filled_step (h : t.Sound) (hf : t.Filled) {step : Step} (hh : t.Heeds step) :
    (t.step step).Filled := by
  intro d hd b hb ho
  obtain ⟨bs, hhanded, -, hdelivered⟩ := exists_delivered h step
  rw [hdelivered] at hd
  rcases List.mem_append.mp hd with hd | hd
  · rcases mem_step h hb with hm | hm | hm
    · exact hf d hd b hm ho
    · have hlt := h.passed d hd
      omega
    · have hnone := hf d hd _ hm ho
      cases hnone
  · obtain ⟨hshown, htyped⟩ := hhanded.shown d hd b hb ho
    cases ht : b.type with
    | none => exact absurd ht (htyped hh)
    | some type => rw [hshown, TypeByte.shown, ht]; rfl

theorem filled_run (h : t.Sound) (hf : t.Filled) {steps : List Step} (hc : t.Careful steps) :
    (t.run steps).Filled := by
  induction steps generalizing t with
  | nil => exact hf
  | cons step steps ih => exact ih (sound_step h step) (filled_step h hf hc.1) hc.2

/-- The record has every byte that has reached the sink. -/
theorem held_run (h : t.Sound) (steps : List Step) : ∃ ds,
    (t.run steps).delivered = t.delivered ++ ds ∧
      (t.run steps).writer.sink.held = t.writer.sink.held ++ ds.map Prod.fst := by
  induction steps generalizing t with
  | nil => exact ⟨[], by simp [run]⟩
  | cons step steps ih =>
    obtain ⟨bs, hhanded, -, hdelivered⟩ := exists_delivered h step
    obtain ⟨ds, hds, hheld⟩ := ih (sound_step h step)
    refine ⟨bs.zipIdx t.writer.buffer.gone ++ ds, ?_, ?_⟩
    · rw [run, hds, hdelivered, List.append_assoc]
    · rw [run, hheld, hhanded.held, List.map_append, List.zipIdx_map_fst, List.append_assoc]

/-! ## Type bytes that leave too early -/

/-- A type byte has reached the sink as zero. -/
def Spoiled (t : Trail) : Prop :=
  ∃ d ∈ t.delivered, d.1 = 0 ∧ ∃ b ∈ t.reserved, b.offset = d.2

theorem Spoiled.not_filled (h : t.Spoiled) : ¬t.Filled := by
  obtain ⟨d, hd, hzero, b, hb, ho⟩ := h
  intro hf
  have htag := hf d hd b hb ho
  rw [hzero] at htag
  obtain ⟨type, -, ht⟩ := Option.map_eq_some_iff.mp htag
  revert ht
  cases type <;> decide

theorem spoiled_step (h : t.Sound) (hs : t.Spoiled) (step : Step) : (t.step step).Spoiled := by
  obtain ⟨d, hd, hzero, b, hb, ho⟩ := hs
  obtain ⟨bs, -, -, hdelivered⟩ := exists_delivered h step
  obtain ⟨c, hc, hco⟩ := TypeByte.exists_after hb t.writer step
  refine ⟨d, ?_, hzero, c, hc, hco.trans ho⟩
  rw [hdelivered]
  exact List.mem_append_left _ hd

theorem spoiled_run (h : t.Sound) (hs : t.Spoiled) (steps : List Step) :
    (t.run steps).Spoiled := by
  induction steps generalizing t with
  | nil => exact hs
  | cons step steps ih => exact ih (sound_step h step) (spoiled_step h hs step)

/-- If everything leaves while a type byte waits, that type byte leaves as zero. -/
theorem spoiled_of_held (h : t.Sound) {step : Step} (hn : ¬t.Complete)
    (hr : TypeByte.after t.reserved t.writer step = t.reserved)
    (hheld : (t.step step).writer.sink.held = t.writer.sink.held ++ t.writer.buffer.held) :
    (t.step step).Spoiled := by
  obtain ⟨bs, hhanded, -, hdelivered⟩ := exists_delivered h step
  obtain rfl : bs = t.writer.buffer.held :=
    List.append_cancel_left (hhanded.held.symm.trans hheld)
  unfold Complete at hn
  push Not at hn
  obtain ⟨b, hb, hg, ht⟩ := hn
  have hget := (h.tracked.shown b hb hg).getElem?
  rw [TypeByte.shown, ht] at hget
  refine ⟨(0, b.offset), ?_, rfl, b, by rw [Trail.step, hr]; exact hb, rfl⟩
  rw [hdelivered]
  exact List.mem_append_right _ (List.mem_zipIdx_iff_le_and_getElem?_sub.mpr ⟨hg, hget⟩)

end Trail

/-! ## Sinks that take everything -/

namespace Action

variable {w : Writer}

theorem held_flushSink (hs : w.sink.TakesAll) :
    flushSink.Yields w (fun _ w' => w'.sink.held = w.sink.held ++ w.buffer.held)
      (fun _ w' => w'.sink.held = w.sink.held ++ w.buffer.held) := by
  obtain ⟨sink, -, hok, hheld⟩ := Sink.handOver_of_takesAll hs w.buffer.held
  rw [yields_flushSink, yields_drain, hok]
  dsimp only
  split
  · exact hheld
  · exact hheld

theorem held_flush (hs : w.sink.TakesAll) (hp : w.phase ≠ .closed) :
    (flush.after w).sink.held = w.sink.held ++ w.buffer.held := by
  refine @Yields.after _ flush w (fun w' => w'.sink.held = w.sink.held ++ w.buffer.held) ?_
  unfold flush
  simp only [yields_tracked, yields_andThen, yields_get, yields_ite, if_neg hp]
  exact (held_flushSink hs).mono (fun _ _ h => h) fun _ w' h => by rw [w'.sink_fail]; exact h

theorem held_close (hs : w.sink.TakesAll) (hr : w.phase = .running)
    (ha : w.options.autoClose = false) :
    (close.after w).sink.held = w.sink.held ++ w.buffer.held := by
  refine @Yields.after _ close w (fun w' => w'.sink.held = w.sink.held ++ w.buffer.held) ?_
  refine yields_close (fun hp => ?_) (fun hp => ?_) fun _ => ?_
  · rw [hr] at hp
    cases hp
  · rw [hr] at hp
    cases hp
  · rw [endAll, ha]
    exact (held_flushSink hs).mono (fun _ _ h => h) fun _ w' h => by rw [w'.sink_fail]; exact h

end Action

namespace Trail

variable {t : Trail}

theorem spoiled_of_not_heeds (h : t.Sound) (hs : t.writer.sink.TakesAll) {step : Step}
    (hn : ¬t.Heeds step) : (t.step step).Spoiled := by
  cases step with
  | flush =>
    obtain ⟨hp, hc⟩ := Classical.not_imp.mp hn
    exact spoiled_of_held h hc rfl (held_flush hs hp)
  | close =>
    obtain ⟨hr, hn⟩ := Classical.not_imp.mp hn
    obtain ⟨ha, hc⟩ := Classical.not_imp.mp hn
    exact spoiled_of_held h hc rfl (held_close hs hr ha)
  | _ => exact absurd trivial hn

theorem careful_of_filled (h : t.Sound) (hs : t.writer.sink.TakesAll) {steps : List Step}
    (hf : (t.run steps).Filled) : t.Careful steps := by
  induction steps generalizing t with
  | nil => trivial
  | cons step steps ih =>
    obtain ⟨bs, hhanded, -, -⟩ := exists_delivered h step
    refine ⟨?_, ih (sound_step h step) (hhanded.takes hs) hf⟩
    by_contra hn
    have hspoiled := spoiled_of_not_heeds h hs hn
    exact (spoiled_run (sound_step h step) hspoiled steps).not_filled hf

end Trail

/-- The record of a run has every byte that has reached the sink. The type bytes
among them all have their values if no flush, and no closing of a session that may
leave its containers open, comes while one waits; and if the sink takes everything,
only then. -/
theorem delivered_type_bytes (sink : Sink) (options : Options) (storage : Bytes)
    (steps : List Step) :
    let t := Trail.start sink options storage
    (t.run steps).writer.sink.held = sink.held ++ (t.run steps).delivered.map Prod.fst ∧
      (t.Careful steps → (t.run steps).Filled) ∧
      (sink.TakesAll → (t.run steps).Filled → t.Careful steps) := by
  have hsound := Trail.sound_start sink options storage
  refine ⟨?_, fun hc => ?_, fun hs hf => Trail.careful_of_filled hsound hs hf⟩
  · obtain ⟨ds, hds, hheld⟩ := Trail.held_run hsound steps
    rw [hheld, hds]
    rfl
  · exact Trail.filled_run hsound (fun d hd => by cases hd) hc

/-- A type byte is reserved and given up, and the failed session is flushed. -/
def flushAfterDrop : List Step :=
  [.begin .container .startObject .document, .name "a", .drop .value, .flush]

theorem delivered_type_bytes_given_up :
    ¬((Trail.start {} {} []).run flushAfterDrop).Filled := by
  intro hf
  have hs : ({} : Sink).TakesAll := ⟨rfl, by decide, rfl⟩
  obtain ⟨-, -, -, hheeds, -⟩ := (delivered_type_bytes {} {} [] flushAfterDrop).2.2 hs hf
  have hcomplete := hheeds (by decide +kernel)
  revert hcomplete
  decide +kernel

end BsonWriter
