import AuroraLtfs.Load.Input
import AuroraLtfs.Tape.Writes

/-!
# The index as a stream of bytes

`xml_output_tape_write_callback` takes the index from the XML writer in pieces of any
size and puts it on tape in blocks; `xml_output_tape_close_callback` writes what is left.
The blocks depend on the stream alone, not on the pieces, and the input callback gives
the stream back whatever the sizes it is asked for.  An error ends the writing: it stays
in the context, and every later call finds it there.
-/

namespace AuroraLtfs.Index

open AuroraLtfs.Tape AuroraLtfs.Load

variable {β : Type*}

/-- `struct xml_output_tape` without its buffer.  `fd` is the file of the index cache,
whose `n`th write succeeds or fails as `fdAnswers` says. -/
structure XmlOutputTape (β : Type*) where
  device : Device (List β)
  errCode : Option TapeError
  fd : ℤ
  errnoFd : Bool
  fdAnswers : ℕ → Bool
  fdIssued : ℕ

/-- The bytes in the buffer, and the rest of the context. -/
abbrev Output (β : Type*) := List β × XmlOutputTape β

def writeTape (block : List β) (c : XmlOutputTape β) :
    Outcome Unit (XmlOutputTape β) Unit :=
  match tapeWrite block true true c.device with
  | (.error e, d) => (.error (), { c with device := d, errCode := some e })
  | (.ok (), d) => (.ok (), { c with device := d })

def writeFd (c : XmlOutputTape β) : Outcome Unit (XmlOutputTape β) Unit :=
  if c.fdAnswers c.fdIssued then (.ok (), { c with fdIssued := c.fdIssued + 1 })
  else (.error (), { c with fdIssued := c.fdIssued + 1, errnoFd := true })

/-- A block for the tape and, if there is one, for the index cache. -/
def writeBlock (cached : Bool) (block : List β) (c : XmlOutputTape β) :
    Outcome Unit (XmlOutputTape β) Unit :=
  (writeTape block c).andThen fun _ c => if cached then writeFd c else (.ok (), c)

/-- The loop that fills the buffer from `bytes` and writes it.  A round takes `bs` bytes
off those in the buffer and in `bytes`. -/
def flushBlocks (bs : ℕ) : ℕ → List β → Output β → Outcome Unit (Output β) Unit
  | 0, _, s => (.ok (), s)
  | rounds + 1, bytes, (buf, c) =>
    let copyCount := bs - buf.length
    ((writeBlock (0 < c.fd) (buf ++ bytes.take copyCount) c).within
      fun c => (buf, c)).andThen fun _ s =>
        let bytes := bytes.drop copyCount
        if bs < bytes.length then flushBlocks bs rounds bytes ([], s.2)
        else (.ok (), (bytes, s.2))

/-- `xml_output_tape_write_callback`.  The sum of the bytes in the buffer and the new ones
is taken in 32 bits. -/
def xmlOutputTapeWriteCallback (bs : ℕ) (bytes : List β) (s : Output β) :
    Outcome Unit (Output β) ℕ :=
  let used := (s.1.length + bytes.length) % 2 ^ 32
  if bytes.length = 0 then (.ok 0, s)
  else if s.2.errCode ≠ none ∨ s.2.errnoFd then (.error (), s)
  else if used < bs then (.ok bytes.length, ((s.1 ++ bytes).take used, s.2))
  else (flushBlocks bs (s.1.length + bytes.length) bytes s).andThen fun _ s =>
    (.ok bytes.length, s)

/-- `fsync` of the index cache, whose error is returned and not recorded. -/
def syncFd (ret : Except Unit Unit) (s : Output β) : Outcome Unit (Output β) Unit :=
  if ¬s.2.errnoFd ∧ 0 ≤ s.2.fd then
    (if s.2.fdAnswers s.2.fdIssued then ret else .error (),
      (s.1, { s.2 with fdIssued := s.2.fdIssued + 1 }))
  else (ret, s)

/-- What is left in the buffer, unless there was an error. -/
def writeRest (s : Output β) : Outcome Unit (Output β) Unit :=
  if s.2.errCode = none ∧ ¬s.2.errnoFd ∧ 0 < s.1.length then
    (writeBlock (0 ≤ s.2.fd) s.1 s.2).within fun c => (s.1, c)
  else (.ok (), s)

/-- `xml_output_tape_close_callback`. -/
def xmlOutputTapeCloseCallback (s : Output β) : Outcome Unit (Output β) Unit :=
  syncFd (writeRest s).1 (writeRest s).2

/-- The XML writer at work: a write callback for each piece, whatever they return, and the
close callback. -/
def writeStream (bs : ℕ) (pieces : List (List β)) (s : Output β) : Output β :=
  (xmlOutputTapeCloseCallback
    (pieces.foldl (fun s bytes => (xmlOutputTapeWriteCallback bs bytes s).2) s)).2

/-- The XML parser at work: the answers to its requests. -/
def readStream (bs : ℕ) : List ℕ → Input β → InputCall β (List (List β))
  | [], s => (.ok [], s)
  | len :: lens, s =>
    (xmlInputTapeReadCallback bs len s).andThen fun bytes s =>
      (readStream bs lens s).andThen fun answers s => (.ok (bytes :: answers), s)

/-! ## The blocks of a stream -/

/-- Full blocks and at most one more, which is not empty. -/
structure Packed (bs : ℕ) (stream : List β) (bl : List (List β)) : Prop where
  flatten : bl.flatten = stream
  full : ∀ block ∈ bl.dropLast, block.length = bs
  sized : Sized bs bl

/-- The stream as the requests cut it. -/
def cuts : List ℕ → List β → List (List β)
  | [], _ => []
  | len :: lens, stream => stream.take len :: cuts lens (stream.drop len)

/-- Blocks written one after another, up to the first error. -/
def tapeWrites : List (List β) → Device (List β) → TapeCall (Device (List β)) Unit
  | [], d => (.ok (), d)
  | block :: bl, d => (tapeWrite block true true d).andThen fun _ d => tapeWrites bl d

/-- The result that goes with what is recorded in the context. -/
def recorded (errCode : Option TapeError) : Except TapeError Unit :=
  match errCode with
  | none => .ok ()
  | some e => .error e

variable {bs : ℕ} {stream : List β} {bl : List (List β)} {c : XmlOutputTape β}
  {d : Device (List β)}

theorem tapeWrites_append (bl bl' : List (List β)) (d : Device (List β)) :
    tapeWrites (bl ++ bl') d =
      (tapeWrites bl d).andThen fun _ d => tapeWrites bl' d := by
  induction bl generalizing d with
  | nil => rfl
  | cons block bl ih =>
    rw [List.cons_append, tapeWrites, tapeWrites]
    generalize tapeWrite block true true d = r
    obtain ⟨_ | _, d'⟩ := r
    · rfl
    · exact ih d'

theorem Packed.nil (bs : ℕ) : Packed bs ([] : List β) [] :=
  ⟨rfl, by simp, fun _ h => absurd h (by simp)⟩

theorem Packed.cons {block : List β} (hbs : 0 < bs) (hblock : block.length = bs)
    (h : Packed bs stream bl) : Packed bs (block ++ stream) (block :: bl) := by
  refine ⟨by rw [List.flatten_cons, h.flatten], ?_, ?_⟩
  · cases bl with
    | nil => simp
    | cons next bl =>
      rw [List.dropLast_cons_cons]
      exact List.forall_mem_cons.mpr ⟨hblock, h.full⟩
  · exact List.forall_mem_cons.mpr ⟨⟨by omega, hblock.le⟩, h.sized⟩

theorem Packed.append {full : List (List β)} (hbs : 0 < bs)
    (hfull : ∀ block ∈ full, block.length = bs) (h : Packed bs stream bl) :
    Packed bs (full.flatten ++ stream) (full ++ bl) := by
  induction full with
  | nil => exact h
  | cons block full ih =>
    obtain ⟨hblock, hfull⟩ := List.forall_mem_cons.mp hfull
    rw [List.flatten_cons, List.append_assoc]
    exact (ih hfull).cons hbs hblock

theorem Packed.eq_nil (h : Packed bs stream bl) (hstream : stream = []) : bl = [] := by
  cases bl with
  | nil => rfl
  | cons block bl =>
    have hpos := (h.sized block List.mem_cons_self).1
    have hflatten := h.flatten
    rw [hstream, List.flatten_cons, List.append_eq_nil_iff] at hflatten
    simp [hflatten.1] at hpos

theorem Packed.single {block : List β} (hpos : 0 < block.length) (hle : block.length ≤ bs) :
    Packed bs block [block] :=
  ⟨by simp, by simp, by simpa [Sized] using ⟨hpos, hle⟩⟩

/-- What follows a block of a packed stream. -/
theorem Packed.tail {block : List β} (h : Packed bs stream (block :: bl)) :
    stream = block ++ bl.flatten ∧ Packed bs bl.flatten bl ∧
      (block.length = bs ∨ bl = []) := by
  refine ⟨h.flatten.symm, ⟨rfl, ?_, h.sized.tail⟩, ?_⟩
  · cases bl with
    | nil => simp
    | cons next bl =>
      intro b hb
      exact h.full b (List.mem_cons_of_mem _ hb)
  · cases bl with
    | nil => exact .inr rfl
    | cons next bl => exact .inl (h.full block (by simp))

theorem Packed.head {block : List β} (h : Packed bs stream (block :: bl)) :
    block = stream.take bs := by
  obtain ⟨rfl, -, hfull | rfl⟩ := h.tail
  · rw [← hfull, List.take_left]
  · have hle := (h.sized block List.mem_cons_self).2
    rw [List.flatten_nil, List.append_nil, List.take_of_length_le hle]

/-- A stream is packed in one way only. -/
theorem Packed.unique {bl' : List (List β)} (h : Packed bs stream bl)
    (h' : Packed bs stream bl') : bl = bl' := by
  induction bl generalizing stream bl' with
  | nil => exact (h'.eq_nil h.flatten.symm).symm
  | cons block bl ih =>
    cases bl' with
    | nil => exact h.eq_nil h'.flatten.symm
    | cons block' bl' =>
      obtain rfl : block = block' := h.head.trans h'.head.symm
      obtain ⟨hstream, htail, -⟩ := h.tail
      obtain ⟨hstream', htail', -⟩ := h'.tail
      rw [List.append_cancel_left (hstream'.symm.trans hstream)] at htail'
      rw [ih htail htail']

/-- Every stream can be packed. -/
theorem exists_packed (hbs : 0 < bs) (stream : List β) : ∃ bl, Packed bs stream bl := by
  induction hn : stream.length using Nat.strong_induction_on generalizing stream with
  | _ n ih =>
    subst hn
    rcases Nat.lt_or_ge stream.length bs with hlt | hge
    · rcases Nat.eq_zero_or_pos stream.length with hzero | hpos
      · rw [List.length_eq_zero_iff.mp hzero]
        exact ⟨[], Packed.nil bs⟩
      · exact ⟨[stream], Packed.single hpos hlt.le⟩
    · obtain ⟨bl, hbl⟩ := ih _ (by rw [List.length_drop]; omega) (stream.drop bs) rfl
      have hfirst : (stream.take bs).length = bs := by simpa using hge
      have hcons := hbl.cons hbs hfirst
      rw [List.take_append_drop] at hcons
      exact ⟨_, hcons⟩

/-! ## Writing -/

/-- No error is recorded. -/
def XmlOutputTape.Sound (c : XmlOutputTape β) : Prop :=
  c.errCode = none ∧ c.errnoFd = false

/-- From the device `d` on the tape has been given the full blocks `full`, and what is
recorded is the result of that; `rest` is what remains of the stream. -/
structure Written (bs : ℕ) (d : Device (List β)) (stream : List β) (c : XmlOutputTape β)
    (full : List (List β)) (rest : List β) : Prop where
  full_length : ∀ block ∈ full, block.length = bs
  flatten : full.flatten ++ rest = stream
  tape : tapeWrites full d = (recorded c.errCode, c.device)

/-- What the callbacks have done with `stream`: unless there was an error, what remains is
in the buffer. -/
def Emitted (bs : ℕ) (d : Device (List β)) (stream : List β) (s : Output β) : Prop :=
  ∃ full rest, Written bs d stream s.2 full rest ∧
    (s.2.Sound → s.1 = rest ∧ rest.length ≤ bs)

theorem writeBlock_spec (cached : Bool) (block : List β) (hc : c.Sound) :
    tapeWrite block true true c.device =
        (recorded (writeBlock cached block c).2.errCode, (writeBlock cached block c).2.device) ∧
      ((writeBlock cached block c).1 = .ok () ↔ (writeBlock cached block c).2.Sound) := by
  rw [writeBlock, writeTape]
  generalize tapeWrite block true true c.device = r
  obtain ⟨e | _, d⟩ := r
  · simp [recorded, XmlOutputTape.Sound]
  · obtain ⟨herr, hfd⟩ := hc
    cases cached with
    | false => simp [recorded, XmlOutputTape.Sound, herr, hfd]
    | true =>
      simp only [Outcome.andThen_ok, writeFd, if_true]
      split_ifs <;> simp [recorded, XmlOutputTape.Sound, herr, hfd]

theorem tapeWrites_single (block : List β) (d : Device (List β)) :
    tapeWrites [block] d = tapeWrite block true true d := by
  rw [tapeWrites]
  generalize tapeWrite block true true d = r
  obtain ⟨_ | _, _⟩ := r <;> rfl

/-- One more full block. -/
theorem Written.write {block rest : List β} {full : List (List β)} (hc : c.Sound)
    (h : Written bs d stream c full (block ++ rest)) (hlen : block.length = bs)
    (cached : Bool) :
    Written bs d stream (writeBlock cached block c).2 (full ++ [block]) rest := by
  obtain ⟨htape, -⟩ := writeBlock_spec cached block hc
  refine ⟨?_, ?_, ?_⟩
  · intro b hb
    rcases List.mem_append.mp hb with hb | hb
    · exact h.full_length b hb
    · rw [List.mem_singleton.mp hb, hlen]
  · rw [List.flatten_append, List.flatten_singleton, List.append_assoc, h.flatten]
  · rw [tapeWrites_append, h.tape, hc.1]
    exact (tapeWrites_single block c.device).trans htape

/-- The loop writes full blocks and leaves a rest that fits in the buffer. -/
theorem flushBlocks_emitted (hbs : 0 < bs) {bytes buf : List β} {full : List (List β)}
    (hc : c.Sound) (h : Written bs d stream c full (buf ++ bytes)) (hbuf : buf.length ≤ bs)
    (hbytes : bs ≤ buf.length + bytes.length) {rounds : ℕ}
    (hrounds : buf.length + bytes.length ≤ rounds) :
    Emitted bs d stream (flushBlocks bs rounds bytes (buf, c)).2 := by
  induction rounds generalizing bytes buf c full with
  | zero => omega
  | succ rounds ih =>
    rw [flushBlocks]
    rw [← List.take_append_drop (bs - buf.length) bytes, ← List.append_assoc] at h
    have hlen : (buf ++ bytes.take (bs - buf.length)).length = bs := by
      rw [List.length_append, List.length_take]
      omega
    obtain ⟨-, hsound⟩ :=
      writeBlock_spec (0 < c.fd) (buf ++ bytes.take (bs - buf.length)) hc
    have hw := h.write hc hlen (0 < c.fd)
    generalize writeBlock (0 < c.fd) (buf ++ bytes.take (bs - buf.length)) c = r at *
    obtain ⟨_ | _, c'⟩ := r
    · exact ⟨_, _, hw, fun hc' => absurd (hsound.mpr hc') (by simp)⟩
    · have hc' : c'.Sound := hsound.mp rfl
      simp only [Outcome.within, Outcome.andThen_ok]
      split_ifs with hmore
      · refine @ih c' _ [] _ hc' hw (by simp) ?_ ?_
        · rw [List.length_nil, Nat.zero_add]
          exact hmore.le
        · rw [List.length_nil, Nat.zero_add, List.length_drop]
          omega
      · exact ⟨_, _, hw, fun _ => ⟨rfl, not_lt.mp hmore⟩⟩

/-- A write callback goes on with the stream. -/
theorem Emitted.writeCallback (hbs : 0 < bs) (hmax : bs ≤ 2 ^ 31) {bytes : List β}
    {s : Output β} (h : Emitted bs d stream s) (hbytes : bytes.length < 2 ^ 31) :
    Emitted bs d (stream ++ bytes) (xmlOutputTapeWriteCallback bs bytes s).2 := by
  obtain ⟨full, rest, hw, hbuf⟩ := h
  have hw' : Written bs d (stream ++ bytes) s.2 full (rest ++ bytes) :=
    ⟨hw.full_length, by rw [← List.append_assoc, hw.flatten], hw.tape⟩
  obtain ⟨buf, c⟩ := s
  rw [xmlOutputTapeWriteCallback]
  dsimp only at *
  split_ifs with hempty herror hfits
  · rw [List.length_eq_zero_iff.mp hempty, List.append_nil]
    exact ⟨full, rest, hw, hbuf⟩
  · refine ⟨full, rest ++ bytes, hw', fun hc => ?_⟩
    rcases herror with herr | hfd
    · exact absurd hc.1 herr
    · exact absurd hc.2 (by simp [hfd])
  all_goals
    have hc : c.Sound := by simpa [XmlOutputTape.Sound] using herror
    obtain ⟨rfl, hle⟩ := hbuf hc
    have hsum : (buf.length + bytes.length) % 2 ^ 32 = buf.length + bytes.length :=
      Nat.mod_eq_of_lt (by omega)
    rw [hsum] at hfits
  · rw [hsum, List.take_of_length_le (by simp)]
    exact ⟨full, _, hw', fun _ => ⟨rfl, by simpa using hfits.le⟩⟩
  · have hflush := flushBlocks_emitted hbs hc hw' hle (not_lt.mp hfits) le_rfl
    generalize flushBlocks bs (buf.length + bytes.length) bytes (buf, c) = r at *
    obtain ⟨_ | _, _⟩ := r
    · exact hflush
    · exact hflush

theorem Emitted.pieces (hbs : 0 < bs) (hmax : bs ≤ 2 ^ 31) {pieces : List (List β)}
    {s : Output β} (h : Emitted bs d stream s)
    (hint : ∀ bytes ∈ pieces, bytes.length < 2 ^ 31) :
    Emitted bs d (stream ++ pieces.flatten)
      (pieces.foldl (fun s bytes => (xmlOutputTapeWriteCallback bs bytes s).2) s) := by
  induction pieces generalizing stream s with
  | nil => simpa using h
  | cons bytes pieces ih =>
    obtain ⟨hbytes, hint⟩ := List.forall_mem_cons.mp hint
    rw [List.flatten_cons, ← List.append_assoc, List.foldl_cons]
    exact ih (h.writeCallback hbs hmax hbytes) hint

/-- The whole stream has been offered to the tape in blocks, up to the first error. -/
def Stored (bs : ℕ) (d : Device (List β)) (stream : List β) (c : XmlOutputTape β) : Prop :=
  ∃ bl, Packed bs stream bl ∧ ∃ done rest, bl = done ++ rest ∧
    tapeWrites done d = (recorded c.errCode, c.device) ∧ (c.Sound → rest = [])

theorem Stored.syncFd {s : Output β} (h : Stored bs d stream s.2) (ret : Except Unit Unit) :
    Stored bs d stream (syncFd ret s).2.2 := by
  unfold Index.syncFd
  split
  · exact h
  · exact h

/-- The close callback writes what is left. -/
theorem Emitted.closeCallback (hbs : 0 < bs) {s : Output β} (h : Emitted bs d stream s) :
    Stored bs d stream (xmlOutputTapeCloseCallback s).2.2 := by
  obtain ⟨full, rest, hw, hbuf⟩ := h
  obtain ⟨bl, hbl⟩ := exists_packed hbs rest
  have hpacked := hbl.append hbs hw.full_length
  rw [hw.flatten] at hpacked
  obtain ⟨buf, c⟩ := s
  apply Stored.syncFd
  rw [writeRest]
  split
  · rename_i hwrite
    have hc : c.Sound := ⟨hwrite.1, by simpa using hwrite.2.1⟩
    obtain ⟨rfl, hle⟩ := hbuf hc
    obtain ⟨htape, -⟩ := writeBlock_spec (0 ≤ c.fd) buf hc
    have hlast := (Packed.single hwrite.2.2 hle).append hbs hw.full_length
    rw [hw.flatten] at hlast
    refine ⟨_, hlast, full ++ [buf], [], (List.append_nil _).symm, ?_, fun _ => rfl⟩
    rw [tapeWrites_append, hw.tape, hc.1]
    exact (tapeWrites_single buf c.device).trans htape
  · rename_i hwrite
    refine ⟨_, hpacked, full, bl, rfl, hw.tape, fun hc => ?_⟩
    obtain ⟨rfl, -⟩ := hbuf hc
    obtain ⟨herr, hfd⟩ := hc
    have hempty : buf = [] := by
      simpa [show c.errCode = none from herr, show c.errnoFd = false from hfd] using hwrite
    exact hbl.eq_nil hempty

/-- A block that was written is on the tape. -/
theorem tapeWrite_medium {block : List β} {ignoreLess ignoreNospc : Bool}
    {e : Device (List β)} (h : tapeWrite block ignoreLess ignoreNospc d = (.ok (), e)) :
    e.medium = d.medium.write d.position.partition d.position.block [.block block] ∧
      e.position = ⟨d.position.partition, d.position.block + 1⟩ := by
  simp only [tapeWrite] at h
  cases hrefusal : writeRefusal ignoreLess ignoreNospc d with
  | some error => simp [hrefusal] at h
  | none =>
    rw [hrefusal] at h
    obtain ⟨warning, mid, hmid, hfinish⟩ := Outcome.andThen_eq_ok h
    obtain ⟨hmedium, -, hposition⟩ := backendWrite_eq_ok hmid
    rw [finishWrite, Prod.mk.injEq] at hfinish
    rw [← hfinish.2]
    simpa using ⟨hmedium, hposition⟩

/-- Blocks that were all written follow one another on the tape. -/
theorem tapeWrites_medium {e : Device (List β)}
    (hpos : d.position.block ≤ (d.medium d.position.partition).length)
    (h : tapeWrites bl d = (.ok (), e)) :
    e.medium = d.medium.write d.position.partition d.position.block (blocks bl) := by
  induction bl generalizing d with
  | nil =>
    simp only [tapeWrites, Prod.mk.injEq, true_and] at h
    rw [← h, blocks_nil, Medium.write_nil]
  | cons block bl ih =>
    obtain ⟨_, mid, hmid, hrest⟩ := Outcome.andThen_eq_ok h
    obtain ⟨hmedium, hposition⟩ := tapeWrite_medium hmid
    have hlength : (d.medium.write d.position.partition d.position.block
        [.block block] d.position.partition).length = d.position.block + 1 :=
      length_write_same d.medium d.position.partition (by simp) hpos
    have hmore := ih (by rw [hposition, hmedium]; exact hlength.ge) hrest
    rw [hmore, hmedium, hposition]
    exact write_write d.medium hpos

/-! ## Reading -/

theorem Packed.sectionBytes (h : Packed bs stream bl) : sectionBytes bs bl = stream := by
  induction bl generalizing stream with
  | nil => exact h.flatten
  | cons block bl ih =>
    obtain ⟨rfl, htail, hfull⟩ := h.tail
    rw [Load.sectionBytes]
    split_ifs with hsmall
    · rw [hfull.resolve_left hsmall.ne, List.flatten_nil, List.append_nil]
    · rw [ih htail]

/-- At the end of the stream the tape is behind its blocks. -/
theorem Packed.progress (h : Packed bs stream bl) (closed : Bool) {asked : ℕ}
    (hasked : stream.length < asked) :
    (progress bs closed bl asked).moved = bl.length ∧
      (progress bs closed bl asked).sawFileMark = closed := by
  obtain ⟨k, rfl⟩ : ∃ k, asked = k + 1 := ⟨asked - 1, by omega⟩
  induction bl generalizing stream k with
  | nil => cases closed <;> exact ⟨rfl, rfl⟩
  | cons block bl ih =>
    obtain ⟨rfl, htail, hfull⟩ := h.tail
    rw [List.length_append] at hasked
    rw [Load.progress]
    by_cases hsmall : block.length < bs
    · simp [hsmall, hfull.resolve_left hsmall.ne]
    · obtain ⟨j, hj⟩ : ∃ j, k + 1 - block.length = j + 1 := ⟨k - block.length, by omega⟩
      rw [if_neg hsmall, if_neg (by omega), hj]
      obtain ⟨hmoved, hmark⟩ := ih htail j (by omega)
      exact ⟨congrArg (· + 1) hmoved, hmark⟩

theorem readStream_spec {eod start : ℕ} {p : Part} {rs : List (Record (List β))}
    {closed : Bool} (hbs : 0 < bs) (hlies : Lies rs start bl closed) (hsized : Sized bs bl)
    (heod : KnowsEod rs closed eod) {asked : ℕ} (lens : List ℕ) {s : Input β}
    (hs : Tracks p rs eod start (progress bs closed bl asked) s) :
    ∃ t, readStream bs lens s = (.ok (cuts lens ((sectionBytes bs bl).drop asked)), t) ∧
      Tracks p rs eod start (progress bs closed bl (asked + lens.sum)) t := by
  induction lens generalizing asked s with
  | nil => exact ⟨s, rfl, hs⟩
  | cons len lens ih =>
    rw [readStream, cuts, List.drop_drop, List.sum_cons, ← Nat.add_assoc]
    rcases Nat.eq_zero_or_pos len with rfl | hpos
    · obtain ⟨t, ht, htracks⟩ := ih hs
      refine ⟨t, ?_, htracks⟩
      rw [xmlInputTapeReadCallback, if_pos rfl, Outcome.andThen_ok, ht]
      rfl
    · obtain ⟨u, hu, hmid⟩ := xmlInputTapeReadCallback_spec hbs hlies hsized heod hpos hs
      obtain ⟨t, ht, htracks⟩ := ih hmid
      refine ⟨t, ?_, htracks⟩
      rw [hu, Outcome.andThen_ok, ht]
      rfl

/-! ## There and back -/

/-- Before the first callback of a section that starts at block `start` -/
def unreadInput (start eod : ℕ) (d : Device (List β)) : Input β :=
  (⟨[], start, eod, false, false, none⟩, d)

/-- An index goes to tape as full blocks and at most one more, whatever the pieces, up to
the first error, which stays recorded.  From the tape it comes back as the stream it was
and then end of file, whatever the requests; the callback has seen a file mark, and stands
in front of it, exactly if one follows. -/
theorem xmlTape_stream {bs : ℕ} (hbs : 0 < bs) (hmax : bs ≤ 2 ^ 31)
    (pieces : List (List β)) (hint : ∀ bytes ∈ pieces, bytes.length < 2 ^ 31) :
    ∃ bl, Packed bs pieces.flatten bl ∧
      (∀ c : XmlOutputTape β, c.Sound →
        ∃ done rest, bl = done ++ rest ∧
          tapeWrites done c.device =
            (recorded (writeStream bs pieces ([], c)).2.errCode,
              (writeStream bs pieces ([], c)).2.device) ∧
          ((writeStream bs pieces ([], c)).2.Sound → rest = [] ∧
            (c.device.position.block ≤ (c.device.medium c.device.position.partition).length →
              (writeStream bs pieces ([], c)).2.device.medium =
                c.device.medium.write c.device.position.partition c.device.position.block
                  (blocks bl)))) ∧
      (∀ (p : Part) (rs : List (Record (List β))) (start eod : ℕ) (closed : Bool)
        (d : Device (List β)), Lies rs start bl closed → KnowsEod rs closed eod →
        d.Stands p rs start → ∀ lens, ∃ t,
          readStream bs lens (unreadInput start eod d) =
            (.ok (cuts lens pieces.flatten), t) ∧
          (pieces.flatten.length < lens.sum → t.1.sawFileMark = closed ∧
            t.2.Stands p rs (start + bl.length))) := by
  obtain ⟨bl, hbl⟩ := exists_packed hbs pieces.flatten
  refine ⟨bl, hbl, ?_, ?_⟩
  · intro c hc
    have hstart : Emitted bs c.device [] (([], c) : Output β) :=
      ⟨[], [], ⟨by simp, rfl, by rw [hc.1]; rfl⟩, fun _ => ⟨rfl, Nat.zero_le bs⟩⟩
    obtain ⟨bl', hbl', done, rest, hsplit, htape, hall⟩ :=
      (hstart.pieces hbs hmax hint).closeCallback hbs
    obtain rfl : bl' = bl := hbl'.unique hbl
    refine ⟨done, rest, hsplit, htape, fun hsound => ⟨hall hsound, fun hpos => ?_⟩⟩
    rw [hall hsound, List.append_nil] at hsplit
    subst hsplit
    refine tapeWrites_medium hpos (htape.trans ?_)
    rw [show (xmlOutputTapeCloseCallback _).2.2.errCode = none from hsound.1]
    rfl
  · intro p rs start eod closed d hlies heod hd lens
    have hzero : progress bs closed bl 0 = unread := by cases bl <;> rfl
    have hs : Tracks p rs eod start (progress bs closed bl 0) (unreadInput start eod d) :=
      hzero ▸ ⟨hd, rfl⟩
    obtain ⟨t, ht, htracks⟩ := readStream_spec hbs hlies hbl.sized heod lens hs
    rw [hbl.sectionBytes, List.drop_zero] at ht
    refine ⟨t, ht, fun hend => ?_⟩
    rw [Nat.zero_add] at htracks
    obtain ⟨hmoved, hmark⟩ := hbl.progress closed hend
    have hstands := htracks.stands
    rw [hmoved] at hstands
    exact ⟨by rw [htracks.context, hmark], hstands⟩

/-- Three bytes in blocks of two, out in pieces of one and two, back in requests of two. -/
theorem xmlTape_stream_three_bytes :
    (∃ done rest, [[1, 2], [3]] = done ++ rest ∧ tapeWrites done (loaded fun _ => []) =
      (recorded (writeStream 2 [[1], [2, 3]]
          ([], ⟨loaded fun _ => [], none, -1, false, fun _ => true, 0⟩)).2.errCode,
        (writeStream 2 [[1], [2, 3]]
          ([], ⟨loaded fun _ => [], none, -1, false, fun _ => true, 0⟩)).2.device)) ∧
    ∃ t, readStream 2 [2, 2]
        (unreadInput 0 3 (loaded fun _ => blocks [[1, 2], [3]] ++ [.filemark])) =
          (.ok [[1, 2], [3]], t) ∧
      t.1.sawFileMark = true ∧ t.2.Stands .ip (blocks [[1, 2], [3]] ++ [.filemark]) 2 := by
  obtain ⟨bl, hbl, hwrite, hread⟩ :=
    @xmlTape_stream ℕ 2 (by norm_num) (by norm_num) [[1], [2, 3]] (by simp)
  obtain rfl : bl = [[1, 2], [3]] := hbl.unique ⟨rfl, by simp, by decide⟩
  obtain ⟨done, rest, hsplit, htape, -⟩ :=
    hwrite ⟨loaded fun _ => [], none, -1, false, fun _ => true, 0⟩ ⟨rfl, rfl⟩
  obtain ⟨t, ht, hend⟩ := hread .ip (blocks [[1, 2], [3]] ++ [.filemark]) 0 3 true
    (loaded fun _ => blocks [[1, 2], [3]] ++ [.filemark]) ⟨[], [.filemark], rfl, rfl, [], rfl⟩
    (.inl (by decide)) ⟨loaded_responsive _, rfl, rfl⟩ [2, 2]
  exact ⟨⟨done, rest, hsplit, htape⟩, t, ht, hend (by decide)⟩

/-- Where the new bytes fit in the buffer, by a sum in 32 bits. -/
theorem writeCallback_fits {bytes buf : List β} (hc : c.Sound) (hbytes : 0 < bytes.length)
    (hfits : (buf.length + bytes.length) % 2 ^ 32 < bs) :
    (xmlOutputTapeWriteCallback bs bytes (buf, c)).2 =
      ((buf ++ bytes).take ((buf.length + bytes.length) % 2 ^ 32), c) := by
  have herror : ¬(c.errCode ≠ none ∨ c.errnoFd) := by
    rw [hc.1, hc.2]
    simp
  rw [xmlOutputTapeWriteCallback]
  dsimp only
  rw [if_neg hbytes.ne', if_neg herror, if_pos hfits]

/-- With the largest block size of the context the sum wraps: all of the stream is
dropped. -/
theorem writeStream_wraps {a b e : List β} (hc : c.Sound) (hfd : c.fd = -1)
    (ha : a.length = 2 ^ 31 - 1) (hb : b.length = 2 ^ 31 - 1) (he : e.length = 2) :
    writeStream (2 ^ 32 - 1) [a, b, e] ([], c) = ([], c) := by
  have hfirst : (xmlOutputTapeWriteCallback (2 ^ 32 - 1) a ([], c)).2 = (a, c) := by
    rw [writeCallback_fits hc (by omega) (by rw [List.length_nil]; omega),
      List.take_of_length_le]
    · rfl
    · rw [List.length_append, List.length_nil]
      omega
  have hsecond : (xmlOutputTapeWriteCallback (2 ^ 32 - 1) b (a, c)).2 = (a ++ b, c) := by
    rw [writeCallback_fits hc (by omega) (by omega), List.take_of_length_le]
    rw [List.length_append]
    omega
  have hthird : (xmlOutputTapeWriteCallback (2 ^ 32 - 1) e (a ++ b, c)).2 = ([], c) := by
    have hzero : ((a ++ b).length + e.length) % 2 ^ 32 = 0 := by
      rw [List.length_append, ha, hb, he]
      norm_num
    rw [writeCallback_fits hc (by omega) (by rw [hzero]; norm_num), hzero, List.take_zero]
  have hclose : (xmlOutputTapeCloseCallback (([], c) : Output β)).2 = ([], c) := by
    simp [xmlOutputTapeCloseCallback, writeRest, syncFd, hfd]
  rw [writeStream, List.foldl_cons, List.foldl_cons, List.foldl_cons, List.foldl_nil,
    hfirst, hsecond, hthird, hclose]

theorem xmlTape_stream_wraps :
    ∃ (c : XmlOutputTape ℕ) (pieces : List (List ℕ)), c.Sound ∧
      (∀ bytes ∈ pieces, bytes.length < 2 ^ 31) ∧ pieces.flatten ≠ [] ∧
      writeStream (2 ^ 32 - 1) pieces ([], c) = ([], c) := by
  obtain ⟨a, ha⟩ : ∃ a : List ℕ, a.length = 2 ^ 31 - 1 :=
    ⟨List.replicate _ 0, List.length_replicate⟩
  refine ⟨⟨loaded fun _ => [], none, -1, false, fun _ => true, 0⟩, [a, a, [0, 0]],
    ⟨rfl, rfl⟩, ?_, by simp, writeStream_wraps ⟨rfl, rfl⟩ rfl ha ha rfl⟩
  simp only [List.forall_mem_cons, ha, List.length_cons, List.length_nil]
  exact ⟨by norm_num, by norm_num, by norm_num, by simp⟩

end AuroraLtfs.Index
