import BsonWriter.Proofs.Run.Consistent
import BsonWriter.Proofs.Run.Paired
import BsonWriter.Proofs.Streaming.Output

/-!
Two sessions side by side, one that keeps its output until it is told to hand it over
and one that streams. They agree on everything but where the output is and what the
length fields hold (`Twin`). Handing over and filling a length field, which only one
of them does, keep this; so does everything that both do.
-/

namespace BsonWriter

/-- The same session when it streams: its output is elsewhere. -/
def Writer.streamed (w : Writer) (sink : Sink) (buffer : Buffer) : Writer :=
  { w with options := { w.options with streaming := true }, sink, buffer }

namespace Writer

variable (w : Writer) (sink : Sink) (buffer : Buffer)

@[simp] theorem options_streamed :
    (w.streamed sink buffer).options = { w.options with streaming := true } := rfl

@[simp] theorem buffer_streamed : (w.streamed sink buffer).buffer = buffer := rfl

@[simp] theorem expectations_streamed :
    (w.streamed sink buffer).expectations = w.expectations := rfl

@[simp] theorem escapes_streamed : (w.streamed sink buffer).escapes = w.escapes := rfl

end Writer

/-- A type byte that is here, beside all length fields. -/
structure Free (fields : List Nat) (b : Buffer) (start : Nat) : Prop where
  here : b.gone ≤ start
  written : start < b.size
  apart : ∀ f ∈ fields, start + 1 ≤ f ∨ f + 4 ≤ start

/-- A session `w` that keeps its output, and its twin that streams. `fields` are the
length fields of containers and of code with a scope so far. The outputs are
compared unless some output has been given up, as it is when a failed session is
closed. -/
structure Twin (lost : Prop) (before before' : Bytes) (fields : List Nat) (w v : Writer) :
    Prop where
  same : v = w.streamed v.sink v.buffer
  keeps : w.options.streaming = false
  takes : w.sink.TakesAll
  takes' : v.sink.TakesAll
  size : v.buffer.size = w.buffer.size
  fit : ∀ f ∈ fields, f + 4 ≤ w.buffer.size
  listed : ∀ c ∈ w.containers, c.header ∈ fields
  whole : w.phase = .running → w.buffer.gone = 0
  waiting : w.phase = .running → ∀ start, w.slot = some start → Free fields v.buffer start
  output : ¬lost → ∃ out out', Shows before w.sink w.buffer out ∧
    Shows before' v.sink v.buffer out' ∧ Agree fields out out' ∧ Blank fields out'
  gaveUp : lost → w.phase = .closed ∧ Unfilled fields before' v.sink v.buffer

namespace Free

variable {fields : List Nat} {b : Buffer} {start : Nat}

theorem mono (h : Free fields b start) {c : Buffer} (hg : c.gone = b.gone)
    (hs : b.size ≤ c.size) : Free fields c start :=
  ⟨by rw [hg]; exact h.here, Nat.lt_of_lt_of_le h.written hs, h.apart⟩

theorem cons (h : Free fields b start) {f : Nat} (hf : start + 1 ≤ f) :
    Free (f :: fields) b start :=
  ⟨h.here, h.written, fun g hg => (List.mem_cons.mp hg).elim (fun he => .inl (he ▸ hf)) (h.apart g)⟩

end Free

namespace Twin

variable {lost : Prop} {before before' : Bytes} {fields : List Nat} {w v : Writer}

theorem exists_streamed (h : Twin lost before before' fields w v) :
    ∃ sink buffer, v = w.streamed sink buffer := ⟨_, _, h.same⟩

theorem streams (h : Twin lost before before' fields w v) : v.options.streaming = true := by
  rw [h.same]
  rfl

/-- A session that runs has given nothing up. -/
theorem not_lost (h : Twin lost before before' fields w v) (hr : w.phase = .running) : ¬lost := by
  intro hn
  have hc := (h.gaveUp hn).1
  rw [hr] at hc
  cases hc

/-- Both append the same. -/
theorem append (h : Twin lost before before' fields w v) (bs : Bytes) :
    Twin lost before before' fields { w with buffer := w.buffer.append bs }
      { v with buffer := v.buffer.append bs } := by
  obtain ⟨hsame, hk, ht, ht', hsize, hfit, hl, hwhole, hwait, hout, hgave⟩ := h
  refine ⟨?_, hk, ht, ht', ?_, fun f hf => ?_, hl, hwhole, fun hr start hs => ?_, fun hn => ?_,
    hgave⟩
  · rw [hsame]
    rfl
  · rw [Buffer.size_append, Buffer.size_append, hsize]
  · exact Nat.le_trans (hfit f hf) (w.buffer.size_le_append bs)
  · exact (hwait hr start hs).mono rfl (v.buffer.size_le_append bs)
  · obtain ⟨out, out', hs, hs', ha, hb⟩ := hout hn
    exact ⟨_, _, hs.append bs, hs'.append bs, ha.append bs, hb.append bs⟩

/-- A type byte that is written now is free. -/
theorem free_append (h : Twin lost before before' fields w v) (b : UInt8) (bs : Bytes) :
    Free fields (v.buffer.append (b :: bs)) w.buffer.size := by
  refine ⟨?_, ?_, fun f hf => .inr (h.fit f hf)⟩
  · rw [← h.size]
    exact v.buffer.gone_le_size
  · rw [Buffer.size_append, h.size, List.length_cons]
    omega

/-- Both fill a type byte that is here. -/
theorem patch (h : Twin lost before before' fields w v) (hr : w.phase = .running) {start : Nat}
    (hf : Free fields v.buffer start) (tag : UInt8) :
    ∃ b c, w.buffer.patch start [tag] = .ok b ∧ v.buffer.patch start [tag] = .ok c ∧
      Twin lost before before' fields { w with buffer := b } { v with buffer := c } ∧
      ∀ other, Free fields v.buffer other → Free fields c other := by
  have hwritten : start + [tag].length ≤ w.buffer.size := by rw [← h.size]; exact hf.written
  obtain ⟨b, hb⟩ := @Buffer.patch_of_le w.buffer start [tag] (by rw [h.whole hr]; omega) hwritten
  obtain ⟨c, hc⟩ := @Buffer.patch_of_le v.buffer start [tag] hf.here hf.written
  have hfree : ∀ other, Free fields v.buffer other → Free fields c other := fun other ho =>
    ho.mono (Buffer.gone_of_patch hc) (Nat.le_of_eq (Buffer.size_of_patch hc).symm)
  refine ⟨b, c, hb, hc, ?_, hfree⟩
  have hkept := h.not_lost hr
  obtain ⟨hsame, hk, ht, ht', hsize, hfit, hl, hwhole, hwait, hout, -⟩ := h
  have hbsize := Buffer.size_of_patch hb
  refine ⟨?_, hk, ht, ht', ?_, fun f hm => ?_, hl, fun hr => ?_, fun hr other ho => ?_,
    fun hn => ?_, fun hn => absurd hn hkept⟩
  · rw [hsame]
    rfl
  · exact (Buffer.size_of_patch hc).trans (hsize.trans hbsize.symm)
  · rw [hbsize]
    exact hfit f hm
  · rw [Buffer.gone_of_patch hb]
    exact hwhole hr
  · exact hfree other (hwait hr other ho)
  · obtain ⟨out, out', hs, hs', ha, hblank⟩ := hout hn
    refine ⟨_, _, hs.patch hb, hs'.patch hc, ha.overwrite ?_, hblank.overwrite ?_ hf.apart⟩
    · rw [hs.length]
      exact hwritten
    · rw [hs'.length]
      exact hf.written

/-- Only the twin that streams hands its output over, when no type byte waits. -/
theorem drain (h : Twin lost before before' fields w v) (hr : w.phase = .running)
    (hs : w.slot = none) :
    ∃ sink, v.sink.handOver v.buffer.held = (.ok (), sink) ∧
      Twin lost before before' fields w { v with sink, buffer := v.buffer.drained } := by
  have hkept := h.not_lost hr
  obtain ⟨hsame, hk, ht, ht', hsize, hfit, hl, hwhole, hwait, hout, -⟩ := h
  obtain ⟨sink, hall, hok, hheld⟩ := Sink.handOver_of_takesAll ht' v.buffer.held
  refine ⟨sink, hok, ?_, hk, ht, hall, ?_, hfit, hl, hwhole, fun hr start hw => ?_, fun hn => ?_,
    fun hn => absurd hn hkept⟩
  · rw [hsame]
    rfl
  · rw [Buffer.size_discard, hsize]
  · rw [hs] at hw
    cases hw
  · obtain ⟨out, out', hshows, hshows', ha, hb⟩ := hout hn
    exact ⟨out, out', hshows, hshows'.discard hheld, ha, hb⟩

/-- Only the twin that keeps its output fills a length field. -/
theorem patch_field (h : Twin lost before before' fields w v) (hr : w.phase = .running) {f : Nat}
    (hf : f ∈ fields) (bs : Bytes) (hbs : bs.length = 4) :
    ∃ b, w.buffer.patch f bs = .ok b ∧
      Twin lost before before' fields { w with buffer := b } v := by
  obtain ⟨hsame, hk, ht, ht', hsize, hfit, hl, hwhole, hwait, hout, hgave⟩ := h
  have hle : f + bs.length ≤ w.buffer.size := by rw [hbs]; exact hfit f hf
  obtain ⟨b, hb⟩ := Buffer.patch_of_le (by rw [hwhole hr]; omega) hle
  have hbsize := Buffer.size_of_patch hb
  refine ⟨b, hb, hsame, hk, ht, ht', by rw [hbsize]; exact hsize, fun g hg => ?_, hl,
    fun hr => ?_, hwait, fun hn => ?_, hgave⟩
  · rw [hbsize]
    exact hfit g hg
  · rw [Buffer.gone_of_patch hb]
    exact hwhole hr
  · obtain ⟨out, out', hs, hs', ha, hblank⟩ := hout hn
    refine ⟨_, _, hs.patch hb, hs', ha.overwrite_field hf hbs ?_, hblank⟩
    rw [hs.length]
    exact hfit f hf

/-- Both write a length field, which is zero. -/
theorem append_field (h : Twin lost before before' fields w v) :
    Twin lost before before' (w.buffer.size :: fields)
      { w with buffer := w.buffer.append (lengthField 0) }
      { v with buffer := v.buffer.append (lengthField 0) } := by
  have hv := h.append (lengthField 0)
  obtain ⟨hsame, hk, ht, ht', hsize, hfit, hl, hwhole, hwait, hout, hgave⟩ := h
  refine ⟨hv.same, hk, ht, ht', hv.size, fun f hf => ?_, fun c hc => ?_, hwhole,
    fun hr start hs => ?_, fun hn => ?_, fun hn => ⟨(hgave hn).1, (hgave hn).2.cons ?_⟩⟩
  · rcases List.mem_cons.mp hf with rfl | hf
    · exact Nat.le_of_eq (Buffer.size_append w.buffer (lengthField 0)).symm
    · exact hv.fit f hf
  · exact List.mem_cons_of_mem _ (hl c hc)
  · refine (hv.waiting hr start hs).cons ?_
    rw [← hsize]
    exact (hwait hr start hs).written
  · obtain ⟨out, out', hs, hs', ha, hb⟩ := hout hn
    refine ⟨_, _, hs.append _, hs'.append _,
      (ha.append _).mono fun f hf => List.mem_cons_of_mem _ hf, ?_⟩
    have hnew := hb.append_field
    rwa [hs'.length, hsize] at hnew
  · rw [← hsize]
    exact v.buffer.gone_le_size

/-- Changes that both make and that leave the output alone. -/
theorem restructure (h : Twin lost before before' fields w v) (expectations : List Expectation)
    (containers : List Container) (slot : Option Nat) (phase : Phase)
    (hl : ∀ c ∈ containers, c.header ∈ fields) (hc : w.phase = .closed → phase = .closed)
    (hw : phase = .running → w.phase = .running ∧ ∀ start, slot = some start →
      Free fields v.buffer start) :
    Twin lost before before' fields { w with expectations, containers, slot, phase }
      { v with expectations, containers, slot, phase } := by
  obtain ⟨hsame, hk, ht, ht', hsize, hfit, -, hwhole, -, hout, hgave⟩ := h
  refine ⟨?_, hk, ht, ht', hsize, hfit, hl, fun hr => hwhole (hw hr).1, fun hr => (hw hr).2, hout,
    fun hn => ⟨hc (hgave hn).1, (hgave hn).2⟩⟩
  rw [hsame]
  rfl

/-- The same in a session that stays in its phase. -/
theorem proceed (h : Twin lost before before' fields w v) (expectations : List Expectation)
    (containers : List Container) (slot : Option Nat) (hl : ∀ c ∈ containers, c.header ∈ fields)
    (hs : w.phase = .running → ∀ start, slot = some start → Free fields v.buffer start) :
    Twin lost before before' fields { w with expectations, containers, slot }
      { v with expectations, containers, slot } := by
  have hv := h.restructure expectations containers slot w.phase hl id fun hr => ⟨hr, hs hr⟩
  obtain ⟨sink, buffer, rfl⟩ := h.exists_streamed
  exact hv

theorem withEscapes (h : Twin lost before before' fields w v) (escapes : Option EscapeTable) :
    Twin lost before before' fields { w with escapes } { v with escapes } := by
  obtain ⟨hsame, hk, ht, ht', hsize, hfit, hl, hwhole, hwait, hout, hgave⟩ := h
  refine ⟨?_, hk, ht, ht', hsize, hfit, hl, hwhole, hwait, hout, hgave⟩
  rw [hsame]
  rfl

theorem phase (h : Twin lost before before' fields w v) : v.phase = w.phase := by
  rw [h.same]
  rfl

theorem alike (h : Twin lost before before' fields w v) : w.Alike v := by
  have hsize := h.size
  obtain ⟨sink, buffer, rfl⟩ := h.exists_streamed
  exact ⟨rfl, rfl, rfl, rfl, rfl, hsize⟩

theorem fail (h : Twin lost before before' fields w v) :
    Twin lost before before' fields w.fail v.fail := by
  unfold Writer.fail
  rw [h.phase]
  split
  · rename_i hr
    have hv := h.restructure w.expectations w.containers w.slot .failed h.listed
      (fun hc => by rw [hr] at hc; cases hc) nofun
    obtain ⟨sink, buffer, rfl⟩ := h.exists_streamed
    exact hv
  · exact h

/-- More fields may be named, if they are fields of the output. -/
theorem congr (h : Twin lost before before' fields w v) {others : List Nat}
    (ho : ∀ f, f ∈ others ↔ f ∈ fields) : Twin lost before before' others w v := by
  obtain ⟨hsame, hk, ht, ht', hsize, hfit, hl, hwhole, hwait, hout, hgave⟩ := h
  refine ⟨hsame, hk, ht, ht', hsize, fun f hf => hfit f ((ho f).mp hf),
    fun c hc => (ho _).mpr (hl c hc), hwhole, fun hr start hs => ?_, fun hn => ?_,
    fun hn => ⟨(hgave hn).1, (hgave hn).2.mono (fun f hf => (ho f).mp hf) (Nat.le_refl _)⟩⟩
  · obtain ⟨hg, hlt, ha⟩ := hwait hr start hs
    exact ⟨hg, hlt, fun f hf => ha f ((ho f).mp hf)⟩
  · obtain ⟨out, out', hshows, hshows', ha, hb⟩ := hout hn
    exact ⟨out, out', hshows, hshows', ha.mono fun f hf => (ho f).mpr hf,
      fun f hf => hb f ((ho f).mp hf)⟩

theorem of_iff (h : Twin lost before before' fields w v) (gone : Prop) (hi : gone ↔ lost) :
    Twin gone before before' fields w v := by
  rw [propext hi]
  exact h

/-- Where the twin that streams has its fields, its sink has received zeros or
nothing. -/
theorem unfilled (h : Twin lost before before' fields w v) :
    Unfilled fields before' v.sink v.buffer := by
  by_cases hn : lost
  · exact (h.gaveUp hn).2
  · obtain ⟨out, out', -, hshows', -, hb⟩ := h.output hn
    exact hb.unfilled hshows'

/-- Both hand over everything and are closed. -/
theorem closed (h : Twin lost before before' fields w v) (hr : w.phase = .running)
    {sink sink' : Sink} (ht : sink.TakesAll) (ht' : sink'.TakesAll)
    (hs : sink.held = w.sink.held ++ w.buffer.held)
    (hs' : sink'.held = v.sink.held ++ v.buffer.held) :
    Twin lost before before' fields
      { w with sink, buffer := w.buffer.drained, phase := .closed }
      { v with sink := sink', buffer := v.buffer.drained, phase := .closed } := by
  have hkept := h.not_lost hr
  obtain ⟨hsame, hk, -, -, hsize, hfit, hl, -, -, hout, -⟩ := h
  refine ⟨?_, hk, ht, ht', ?_, fun f hf => ?_, hl, nofun, nofun, fun hn => ?_,
    fun hn => absurd hn hkept⟩
  · rw [hsame]
    rfl
  · rw [Buffer.size_discard, Buffer.size_discard, hsize]
  · rw [Buffer.size_discard]
    exact hfit f hf
  · obtain ⟨out, out', hshows, hshows', ha, hb⟩ := hout hn
    exact ⟨out, out', hshows.discard hs, hshows'.discard hs', ha, hb⟩

/-- Both give up what is here and are closed. -/
theorem givenUp (h : Twin lost before before' fields w v) :
    Twin True before before' fields
      { w with buffer := w.buffer.clear, phase := .closed }
      { v with buffer := v.buffer.clear, phase := .closed } := by
  have hunfilled := h.unfilled
  obtain ⟨hsame, hk, ht, ht', hsize, hfit, hl, -, -, -, -⟩ := h
  refine ⟨?_, hk, ht, ht', ?_, fun f hf => ?_, hl, nofun, nofun, fun hn => absurd trivial hn,
    fun _ => ⟨rfl, hunfilled.mono (fun _ hf => hf) v.buffer.gone_le_size⟩⟩
  · rw [hsame]
    rfl
  · rw [Buffer.size_discard, Buffer.size_discard, hsize]
  · rw [Buffer.size_discard]
    exact hfit f hf

/-- Both begin a container. -/
theorem begun (h : Twin lost before before' fields w v) (shape : Shape) :
    Twin lost before before' (w.buffer.size :: fields)
      { w with
        buffer := w.buffer.append (lengthField 0)
        containers := .start w.buffer.size shape :: w.containers
        expectations := shape.expectation :: w.expectations }
      { v with
        buffer := v.buffer.append (lengthField 0)
        containers := .start v.buffer.size shape :: v.containers
        expectations := shape.expectation :: v.expectations } := by
  have hfield := h.append_field
  have hlisted : ∀ c ∈ Container.start w.buffer.size shape :: w.containers,
      c.header ∈ w.buffer.size :: fields := by
    intro c hc
    rcases List.mem_cons.mp hc with rfl | hc
    · rw [Container.header_start]
      exact List.mem_cons_self
    · exact hfield.listed c hc
  have hv := hfield.restructure (shape.expectation :: w.expectations) _ w.slot w.phase hlisted
    (fun hc => hc) fun hr => ⟨hr, hfield.waiting hr⟩
  have hsize := h.size
  obtain ⟨sink, buffer, rfl⟩ := h.exists_streamed
  rw [hsize]
  exact hv

/-- The fields so far, with those of the containers that are open. -/
theorem current (h : Twin lost before before' fields w v) :
    Twin lost before before' (w.containers.map Container.header ++ fields) w v := by
  refine h.congr fun f => ⟨fun hf => ?_, fun hf => List.mem_append_right _ hf⟩
  rcases List.mem_append.mp hf with hf | hf
  · obtain ⟨c, hc, rfl⟩ := List.mem_map.mp hf
    exact h.listed c hc
  · exact hf

/-- The same when a container has begun. -/
theorem current_of_open {start : Nat} (h : Twin lost before before' (start :: fields) w v)
    (hs : start ∈ w.containers.map Container.header) :
    Twin lost before before' (w.containers.map Container.header ++ fields) w v := by
  refine h.current.congr fun f => ⟨fun hf => ?_, fun hf => ?_⟩
  · rcases List.mem_append.mp hf with hf | hf
    · exact List.mem_append_left _ hf
    · exact List.mem_append_right _ (List.mem_cons_of_mem _ hf)
  · rcases List.mem_append.mp hf with hf | hf
    · exact List.mem_append_left _ hf
    · rcases List.mem_cons.mp hf with rfl | hf
      · exact List.mem_append_left _ hs
      · exact List.mem_append_right _ hf

end Twin

end BsonWriter
