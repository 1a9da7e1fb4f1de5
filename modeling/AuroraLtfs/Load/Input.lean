import AuroraLtfs.Lib.PullParser
import AuroraLtfs.Tape.Space

/-!
# Feeding the parser from tape

`xml_input_tape_read_callback` hands a section of the tape to the XML parser.
The section is read block by block; a block below the block size, a file mark or
end of data ends it.  Behind a small block the callback looks for a file mark,
and where it finds one it positions the tape in front of it.

The parser sees the bytes of the section and nothing of the blocks.  How far the
tape has moved depends on how many bytes the parser has asked for: `progress`
says so, and `xmlInputTapeReadCallback_spec` that the callback does as it says.
-/

namespace AuroraLtfs.Load

open AuroraLtfs.Tape

variable {α β ρ : Type*}

/-- `struct xml_input_tape`; `buf` holds what is left of the last block read. -/
structure XmlInputTape (β : Type*) where
  buf : List β
  currentPos : ℕ
  eodPos : ℕ
  sawSmallBlock : Bool
  sawFileMark : Bool
  errCode : Option TapeError

/-- The callback's context and the drive it reads from. -/
abbrev Input (β : Type*) := XmlInputTape β × Device (List β)

/-- A step of the callback; the error is a return of -1. -/
abbrev InputCall (β α : Type*) := Outcome Unit (Input β) α

/-- A command to the drive, whose error is kept for the caller of the parser. -/
def onTape (call : Device (List β) → TapeCall (Device (List β)) α)
    (s : Input β) : InputCall β α :=
  match call s.2 with
  | (.error e, d) => (.error (), { s.1 with errCode := some e }, d)
  | (.ok a, d) => (.ok a, s.1, d)

/-- The next record, of no bytes if it is a file mark. -/
def readRecord (s : Input β) : InputCall β (List β) :=
  (onTape tapeRead s).andThen fun block s => (.ok (block.getD []), s)

def sawMark (s : Input β) : InputCall β Unit :=
  onTape (tapeSpacefm (-1)) ({ s.1 with sawFileMark := true }, s.2)

/-- A short read ends the section.  A file mark is stepped back over; behind a
record a file mark is looked for. -/
def noteSmall (bs : ℕ) (bytes : List β) (s : Input β) : InputCall β Unit :=
  if bytes.length < bs then
    let s : Input β := ({ s.1 with sawSmallBlock := true }, s.2)
    if bytes.length = 0 then sawMark s
    else if s.1.eodPos = 0 ∨ s.1.currentPos < s.1.eodPos then
      (readRecord s).andThen fun trailing s =>
        if trailing.length = 0 then sawMark s else (.ok (), s)
    else (.ok (), s)
  else (.ok (), s)

/-- The loop that reads blocks until `remaining` bytes are there or the section
ends.  A round that goes on has taken a byte, or is the last one. -/
def fillBuffer (bs : ℕ) : ℕ → ℕ → List β → Input β → InputCall β (List β)
  | 0, _, saved, s => (.ok saved, s)
  | fuel + 1, remaining, saved, s =>
    if remaining = 0 then (.ok saved, s)
    else if 0 < s.1.eodPos ∧ s.1.currentPos = s.1.eodPos then (.ok saved, s)
    else if s.1.sawSmallBlock then (.ok saved, s)
    else ((readRecord s).within fun s =>
        ({ s.1 with currentPos := s.1.currentPos + 1 }, s.2)).andThen
      fun bytes s => (noteSmall bs bytes s).andThen fun _ s =>
        if bytes.length < remaining then
          fillBuffer bs fuel (remaining - bytes.length) (saved ++ bytes) s
        else (.ok (saved ++ bytes.take remaining),
          { s.1 with buf := bytes.drop remaining }, s.2)

/-- `xml_input_tape_read_callback`. -/
def xmlInputTapeReadCallback (bs len : ℕ) (s : Input β) : InputCall β (List β) :=
  if len = 0 then (.ok [], s)
  else if len ≤ s.1.buf.length then
    (.ok (s.1.buf.take len), { s.1 with buf := s.1.buf.drop len }, s.2)
  else
    let missing := len - s.1.buf.length
    fillBuffer bs missing missing s.1.buf ({ s.1 with buf := [] }, s.2)

/-- The parser at work: it asks the callback for bytes until it has its result.
An empty answer, or a failed one, is the end of its input. -/
def parse (P : PullParser β ρ) (bs : ℕ) : ℕ → List β → Input β → ρ × Input β
  | 0, fed, s => (P.atEnd fed, s)
  | fuel + 1, fed, s =>
    match P.next fed with
    | .done result => (result, s)
    | .more len =>
      match xmlInputTapeReadCallback bs len s with
      | (.error (), s) => (P.atEnd fed, s)
      | (.ok [], s) => (P.atEnd fed, s)
      | (.ok (byte :: bytes), s) => parse P bs fuel (fed ++ byte :: bytes) s

/-! ## The section as the parser sees it -/

/-- The bytes of a section: everything up to the first small block. -/
def sectionBytes (bs : ℕ) : List (List β) → List β
  | [] => []
  | block :: rest =>
    if block.length < bs then block else block ++ sectionBytes bs rest

/-- How far the callback has come: the blocks the tape has moved on, the records
counted, the bytes not handed out, and what it has seen. -/
structure Progress (β : Type*) where
  moved : ℕ
  counted : ℕ
  buf : List β
  sawSmallBlock : Bool
  sawFileMark : Bool

/-- One full block further on. -/
def Progress.shift (g : Progress β) : Progress β :=
  { g with moved := g.moved + 1, counted := g.counted + 1 }

/-- How far the callback has come in a section when the parser has asked for
`asked` bytes; `closed` says whether a file mark closes the section. -/
def progress (bs : ℕ) (closed : Bool) : List (List β) → ℕ → Progress β
  | _, 0 => ⟨0, 0, [], false, false⟩
  | [], _ + 1 =>
    if closed then ⟨0, 1, [], true, true⟩ else ⟨0, 0, [], false, false⟩
  | block :: rest, asked + 1 =>
    if block.length < bs then
      ⟨if rest = [] then 1 else 2, 1, block.drop (asked + 1), true,
        decide (rest = []) && closed⟩
    else if asked + 1 ≤ block.length then
      ⟨1, 1, block.drop (asked + 1), false, false⟩
    else (progress bs closed rest (asked + 1 - block.length)).shift

/-! ## What the callback does -/

/-- From block `start` on, `rs` holds the blocks of a section, closed by a file
mark or ended by end of data. -/
def Lies (rs : List (Record (List β))) (start : ℕ) (bl : List (List β))
    (closed : Bool) : Prop :=
  ∃ front tail, front.length = start ∧ rs = front ++ (blocks bl ++ tail) ∧
    if closed then ∃ rest, tail = .filemark :: rest else tail = []

/-- The end of data the callback is told: the real one, or none at all, where a
file mark closes the section. -/
def KnowsEod (rs : List (Record (List β))) (closed : Bool) (eod : ℕ) : Prop :=
  (eod = rs.length ∧ 0 < eod) ∨ (eod = 0 ∧ closed = true)

/-- Blocks as the volume has them: not empty, and not above the block size. -/
def Sized (bs : ℕ) (bl : List (List β)) : Prop :=
  ∀ block ∈ bl, 0 < block.length ∧ block.length ≤ bs

instance (bs : ℕ) (bl : List (List β)) : Decidable (Sized bs bl) :=
  inferInstanceAs (Decidable (∀ block ∈ bl, _))

/-- The callback has come as far as `g` says in the section that starts at
block `start`. -/
structure Tracks (p : Part) (rs : List (Record (List β))) (eod start : ℕ)
    (g : Progress β) (s : Input β) : Prop where
  stands : s.2.Stands p rs (start + g.moved)
  context : s.1 = ⟨g.buf, start + g.counted, eod, g.sawSmallBlock,
    g.sawFileMark, none⟩

namespace Lies

variable {rs : List (Record (List β))} {start : ℕ} {block : List β}
  {rest : List (List β)} {closed : Bool}

theorem head (h : Lies rs start (block :: rest) closed) :
    rs[start]? = some (.block block) := by
  obtain ⟨front, tail, rfl, rfl, -⟩ := h
  simp

theorem tail (h : Lies rs start (block :: rest) closed) :
    Lies rs (start + 1) rest closed := by
  obtain ⟨front, tail, rfl, rfl, htail⟩ := h
  exact ⟨front ++ [.block block], tail, by simp, by simp, htail⟩

theorem filemark (h : Lies rs start [] true) : rs[start]? = some .filemark := by
  obtain ⟨front, tail, rfl, rfl, rest, rfl⟩ := h
  simp

theorem eod (h : Lies rs start [] false) : rs.length = start := by
  obtain ⟨front, tail, rfl, rfl, rfl⟩ := h
  simp

/-- The step back over the closing file mark. -/
theorem back (h : Lies rs start [] true) : spaceBackward rs 1 (start + 1) = .ok start := by
  obtain ⟨front, tail, rfl, rfl, rest, rfl⟩ := h
  have hrs : front ++ (blocks [] ++ .filemark :: rest) =
      front ++ .filemark :: (blocks [] ++ rest) := rfl
  exact spaceBackward_one hrs 0 0 le_rfl

/-- The step forward over the closing file mark. -/
theorem forward {bl : List (List β)} (h : Lies rs start bl true) {k : ℕ}
    (hk : k ≤ bl.length) :
    spaceForward rs 1 (start + k) = .ok (start + (bl.length + 1)) := by
  obtain ⟨front, tail, rfl, hrs, rest, rfl⟩ := h
  rw [spaceForward_one hrs k hk, Nat.add_assoc]

theorem forward_eod {bl : List (List β)} (h : Lies rs start bl false) (k : ℕ) :
    spaceForward rs 1 (start + k) = .error (start + bl.length) := by
  obtain ⟨front, tail, rfl, hrs, rfl⟩ := h
  rw [List.append_nil] at hrs
  rw [spaceForward_eod hrs, hrs]
  simp

end Lies

variable {p : Part} {rs : List (Record (List β))} {bs eod start len : ℕ} {closed : Bool}
  {x : XmlInputTape β} {d : Device (List β)} {block : List β} {bl rest : List (List β)}
  {s : Input β}

theorem onTape_ok {call : Device (List β) → TapeCall (Device (List β)) α}
    {a : α} {d e : Device (List β)} (x : XmlInputTape β)
    (h : call d = (.ok a, e)) : onTape call (x, d) = (.ok a, x, e) := by
  simp [onTape, h]

theorem readRecord_block (hd : d.Stands p rs start) {block : List β}
    (hblock : rs[start]? = some (.block block)) (x : XmlInputTape β) :
    ∃ e, readRecord (x, d) = (.ok block, x, e) ∧ e.Stands p rs (start + 1) := by
  obtain ⟨e, hread, he⟩ := hd.tapeRead_block hblock
  exact ⟨e, by rw [readRecord, onTape_ok x hread]; rfl, he⟩

theorem readRecord_filemark (hd : d.Stands p rs start)
    (hmark : rs[start]? = some .filemark) (x : XmlInputTape β) :
    ∃ e, readRecord (x, d) = (.ok [], x, e) ∧ e.Stands p rs (start + 1) := by
  obtain ⟨e, hread, he⟩ := hd.tapeRead_filemark hmark
  exact ⟨e, by rw [readRecord, onTape_ok x hread]; rfl, he⟩

/-- Behind the closing file mark, the callback steps back over it. -/
theorem sawMark_closed (hd : d.Stands p rs (start + 1))
    (hlies : Lies rs start [] true) (x : XmlInputTape β) :
    ∃ e, sawMark (x, d) = (.ok (), { x with sawFileMark := true }, e) ∧
      e.Stands p rs start := by
  obtain ⟨e, hspace, he⟩ := hd.spaceBackward hlies.back
  exact ⟨e, onTape_ok _ hspace, he⟩

/-- Nothing is read after a small block. -/
theorem fillBuffer_small (hsmall : s.1.sawSmallBlock = true) (fuel remaining : ℕ)
    (saved : List β) : fillBuffer bs fuel remaining saved s = (.ok saved, s) := by
  cases fuel with
  | zero => rfl
  | succ fuel => simp [fillBuffer, hsmall]

theorem KnowsEod.ahead (heod : KnowsEod rs closed eod) {r : Record (List β)}
    (hrecord : rs[start]? = some r) : eod = 0 ∨ start < eod := by
  obtain ⟨hlt, -⟩ := List.getElem?_eq_some_iff.mp hrecord
  rcases heod with ⟨rfl, -⟩ | ⟨rfl, -⟩
  · exact .inr hlt
  · exact .inl rfl

theorem KnowsEod.end (heod : KnowsEod rs false eod)
    (hlies : Lies rs start [] false) : eod = start ∧ 0 < eod := by
  rcases heod with ⟨rfl, hpos⟩ | ⟨-, hclosed⟩
  · exact ⟨hlies.eod, hpos⟩
  · simp at hclosed

/-- What a small block leads to. -/
theorem noteSmall_spec {x : XmlInputTape β} (hd : d.Stands p rs (start + 1))
    (hpos : x.currentPos = start + 1) (hx : x.eodPos = eod)
    (hunseen : x.sawFileMark = false) (hlies : Lies rs (start + 1) rest closed)
    (heod : KnowsEod rs closed eod) (hrest : Sized bs rest)
    (hblock : 0 < block.length) (hsmall : block.length < bs) :
    ∃ e, noteSmall bs block (x, d) = (.ok (), { x with
        sawSmallBlock := true
        sawFileMark := decide (rest = []) && closed }, e) ∧
      e.Stands p rs (start + if rest = [] then 1 else 2) := by
  have hne : block.length ≠ 0 := by omega
  rw [noteSmall, if_pos hsmall]
  dsimp only
  rw [if_neg hne]
  have hahead : ∀ {r : Record (List β)}, rs[start + 1]? = some r →
      x.eodPos = 0 ∨ x.currentPos < x.eodPos := by
    intro r hrecord
    rw [hpos, hx]
    exact heod.ahead hrecord
  cases rest with
  | nil =>
    cases closed with
    | true =>
      obtain ⟨e, hread, he⟩ := readRecord_filemark hd hlies.filemark
        { x with sawSmallBlock := true }
      obtain ⟨e', hmark, he'⟩ := sawMark_closed he hlies { x with sawSmallBlock := true }
      refine ⟨e', ?_, he'⟩
      rw [if_pos (hahead hlies.filemark), hread, Outcome.andThen_ok,
        if_pos List.length_nil, hmark]
      simp
    | false =>
      obtain ⟨hend, -⟩ := heod.end hlies
      refine ⟨d, ?_, hd⟩
      rw [if_neg (by omega)]
      simp [hunseen]
  | cons next rest =>
    obtain ⟨e, hread, he⟩ := readRecord_block hd hlies.head { x with sawSmallBlock := true }
    have hnext : next.length ≠ 0 := (hrest next (by simp)).1.ne'
    refine ⟨e, ?_, he⟩
    rw [if_pos (hahead hlies.head), hread, Outcome.andThen_ok, if_neg hnext]
    simp [hunseen]

/-- Before the first block of a section. -/
def unread : Progress β := ⟨0, 0, [], false, false⟩

theorem Tracks.shift {g : Progress β} :
    Tracks p rs eod start g.shift s ↔ Tracks p rs eod (start + 1) g s := by
  constructor <;> intro h <;>
    exact ⟨by simpa [Progress.shift, Nat.add_comm, Nat.add_left_comm] using h.stands,
      by simpa [Progress.shift, Nat.add_comm, Nat.add_left_comm] using h.context⟩

theorem Sized.tail (h : Sized bs (block :: rest)) : Sized bs rest :=
  fun b hb => h b (List.mem_cons_of_mem _ hb)

/-- One round of the loop, once the block at hand has been read. -/
theorem fillBuffer_block (bs : ℕ) (hs : Tracks p rs eod start unread (x, d))
    (hblock : rs[start]? = some (.block block)) (heod : KnowsEod rs closed eod)
    {remaining : ℕ} (hpos : 0 < remaining) (fuel : ℕ) (saved : List β) :
    ∃ e, e.Stands p rs (start + 1) ∧
      fillBuffer bs (fuel + 1) remaining saved (x, d) =
        (noteSmall bs block
          (⟨[], start + 1, eod, false, false, none⟩, e)).andThen fun _ s =>
          if block.length < remaining then
            fillBuffer bs fuel (remaining - block.length) (saved ++ block) s
          else (.ok (saved ++ block.take remaining),
            { s.1 with buf := block.drop remaining }, s.2) := by
  obtain ⟨hstands, hx⟩ := hs
  obtain rfl : x = ⟨[], start, eod, false, false, none⟩ := hx
  obtain ⟨e, hread, he⟩ := readRecord_block hstands hblock
    ⟨[], start, eod, false, false, none⟩
  refine ⟨e, he, ?_⟩
  have hmore : ¬(0 < eod ∧ start = eod) := by
    have := heod.ahead hblock
    omega
  rw [fillBuffer, if_neg hpos.ne', if_neg hmore, if_neg (by simp), hread]
  rfl

/-- The loop reads as many bytes as remain, or up to the end of the section. -/
theorem fillBuffer_spec (hbs : 0 < bs) (hlies : Lies rs start bl closed)
    (hsized : Sized bs bl) (heod : KnowsEod rs closed eod) {remaining fuel : ℕ}
    (hpos : 0 < remaining) (hfuel : remaining ≤ fuel) (saved : List β)
    (hs : Tracks p rs eod start unread s) :
    ∃ t, fillBuffer bs fuel remaining saved s =
        (.ok (saved ++ (sectionBytes bs bl).take remaining), t) ∧
      Tracks p rs eod start (progress bs closed bl remaining) t := by
  obtain ⟨n, rfl⟩ : ∃ n, remaining = n + 1 := ⟨remaining - 1, by omega⟩
  obtain ⟨fuel, rfl⟩ : ∃ k, fuel = k + 1 := ⟨fuel - 1, by omega⟩
  obtain ⟨x, d⟩ := s
  induction bl generalizing start n fuel saved x d with
  | nil =>
    obtain ⟨hstands, hx⟩ := hs
    obtain rfl : x = ⟨[], start, eod, false, false, none⟩ := hx
    cases closed with
    | false =>
      obtain ⟨rfl, heod⟩ := heod.end hlies
      refine ⟨_, ?_, hstands, rfl⟩
      rw [fillBuffer, if_neg (by simp), if_pos ⟨heod, rfl⟩]
      simp [sectionBytes]
    | true =>
      obtain ⟨e, hread, he⟩ := readRecord_filemark hstands hlies.filemark
        ⟨[], start, eod, false, false, none⟩
      obtain ⟨e', hmark, he'⟩ := sawMark_closed he hlies
        ⟨[], start + 1, eod, true, false, none⟩
      have hmore : ¬(0 < eod ∧ start = eod) := by
        have := heod.ahead hlies.filemark
        omega
      refine ⟨(⟨[], start + 1, eod, true, true, none⟩, e'), ?_, he', rfl⟩
      rw [fillBuffer, if_neg (by simp), if_neg hmore, if_neg (by simp), hread]
      simp only [Outcome.within, Outcome.andThen_ok, noteSmall,
        List.length_nil, hbs, if_true, hmark, hpos]
      rw [fillBuffer_small rfl]
      simp [sectionBytes]
  | cons block rest ih =>
    obtain ⟨hblock, hle⟩ := hsized block (by simp)
    obtain ⟨e, he, hround⟩ := fillBuffer_block bs hs hlies.head heod hpos fuel saved
    rw [hround, sectionBytes, progress]
    by_cases hsmall : block.length < bs
    · obtain ⟨e', hnote, he'⟩ := noteSmall_spec
        (x := ⟨[], start + 1, eod, false, false, none⟩) he rfl rfl rfl
        hlies.tail heod hsized.tail hblock hsmall
      rw [hnote, Outcome.andThen_ok, if_pos hsmall, if_pos hsmall]
      by_cases hmore : block.length < n + 1
      · rw [if_pos hmore, fillBuffer_small rfl, List.take_of_length_le hmore.le,
          List.drop_of_length_le hmore.le]
        exact ⟨_, rfl, he', rfl⟩
      · rw [if_neg hmore]
        exact ⟨_, rfl, he', rfl⟩
    · have hnote : noteSmall bs block
          (⟨[], start + 1, eod, false, false, none⟩, e) =
          (.ok (), ⟨[], start + 1, eod, false, false, none⟩, e) := by
        rw [noteSmall, if_neg hsmall]
      rw [hnote, Outcome.andThen_ok, if_neg hsmall, if_neg hsmall]
      by_cases hmore : block.length < n + 1
      · -- the block is used up; the rest of the section follows
        obtain ⟨k, hk⟩ : ∃ k, n + 1 - block.length = k + 1 := ⟨n - block.length, by omega⟩
        obtain ⟨fuel, rfl⟩ : ∃ m, fuel = m + 1 := ⟨fuel - 1, by omega⟩
        obtain ⟨t, ht, htracks⟩ := ih hlies.tail hsized.tail (saved ++ block) k
          (by omega) fuel (by omega) ⟨[], start + 1, eod, false, false, none⟩ e
          ⟨he, rfl⟩
        refine ⟨t, ?_, ?_⟩
        · rw [if_pos hmore, hk, ht, List.take_append,
            List.take_of_length_le hmore.le, hk, List.append_assoc]
        · rw [if_neg (by omega), hk]
          exact Tracks.shift.mpr htracks
      · rw [if_neg hmore, if_pos (by omega), List.take_append_of_le_length (by omega)]
        exact ⟨_, rfl, he, rfl⟩

/-- The callback where what is asked for is in the buffer. -/
theorem callback_buffered (hpos : 0 < len) (hlen : len ≤ x.buf.length) :
    xmlInputTapeReadCallback bs len (x, d) =
      (.ok (x.buf.take len), { x with buf := x.buf.drop len }, d) := by
  rw [xmlInputTapeReadCallback, if_neg hpos.ne', if_pos hlen]

/-- The callback at the end of a section. -/
theorem callback_small (hlen : x.buf.length < len) (hsmall : x.sawSmallBlock = true) :
    xmlInputTapeReadCallback bs len (x, d) =
      (.ok x.buf, { x with buf := [] }, d) := by
  rw [xmlInputTapeReadCallback, if_neg (by omega), if_neg (by simp; omega)]
  exact fillBuffer_small (s := ({ x with buf := [] }, d)) hsmall _ _ _

/-- The callback where the buffer does not suffice and the section goes on. -/
theorem callback_fill (hbs : 0 < bs) (hlies : Lies rs start bl closed)
    (hsized : Sized bs bl) (heod : KnowsEod rs closed eod) (hd : d.Stands p rs start)
    (saved : List β) (hlen : saved.length < len) :
    ∃ t, xmlInputTapeReadCallback bs len
        (⟨saved, start, eod, false, false, none⟩, d) =
        (.ok (saved ++ (sectionBytes bs bl).take (len - saved.length)), t) ∧
      Tracks p rs eod start (progress bs closed bl (len - saved.length)) t := by
  rw [xmlInputTapeReadCallback, if_neg (by omega), if_neg (by simp; omega)]
  exact fillBuffer_spec hbs hlies hsized heod (by simp; omega) le_rfl saved
    (s := (⟨[], start, eod, false, false, none⟩, d)) ⟨hd, rfl⟩

/-- The callback hands out the section byte by byte, as the parser asks. -/
theorem xmlInputTapeReadCallback_spec (hbs : 0 < bs) (hlies : Lies rs start bl closed)
    (hsized : Sized bs bl) (heod : KnowsEod rs closed eod) {asked : ℕ} (hpos : 0 < len)
    (hs : Tracks p rs eod start (progress bs closed bl asked) s) :
    ∃ t, xmlInputTapeReadCallback bs len s =
        (.ok (((sectionBytes bs bl).drop asked).take len), t) ∧
      Tracks p rs eod start (progress bs closed bl (asked + len)) t := by
  obtain ⟨x, d⟩ := s
  obtain ⟨n, rfl⟩ : ∃ n, len = n + 1 := ⟨len - 1, by omega⟩
  induction bl generalizing start asked with
  | nil =>
    obtain ⟨hstands, rfl⟩ := hs
    rw [sectionBytes, List.drop_nil, List.take_nil]
    cases closed with
    | false =>
      have hunread : progress bs false [] asked = (unread : Progress β) := by
        cases asked <;> rfl
      have hnext : progress bs false [] (asked + (n + 1)) = (unread : Progress β) := rfl
      rw [hunread] at hstands ⊢
      rw [hnext]
      exact callback_fill hbs hlies hsized heod hstands [] hpos
    | true =>
      cases asked with
      | zero =>
        rw [Nat.zero_add]
        exact callback_fill hbs hlies hsized heod hstands [] hpos
      | succ k =>
        exact ⟨_, callback_small hpos rfl, hstands, rfl⟩
  | cons block rest ih =>
    cases asked with
    | zero =>
      obtain ⟨hstands, rfl⟩ := hs
      rw [Nat.zero_add, List.drop_zero]
      exact callback_fill hbs hlies hsized heod hstands [] hpos
    | succ k =>
      have hsum : k + 1 + (n + 1) = k + n + 1 + 1 := by omega
      rw [progress] at hs
      rw [sectionBytes, hsum, progress]
      by_cases hsmall : block.length < bs
      · rw [if_pos hsmall] at hs ⊢
        rw [if_pos hsmall]
        obtain ⟨hstands, rfl⟩ := hs
        by_cases hlen : n + 1 ≤ (block.drop (k + 1)).length
        · refine ⟨_, callback_buffered hpos hlen, hstands, ?_⟩
          rw [List.drop_drop, hsum]
        · rw [List.take_of_length_le (by omega)]
          have hover : block.length ≤ k + n + 1 + 1 := by
            rw [List.length_drop] at hlen
            omega
          rw [List.drop_of_length_le hover]
          exact ⟨_, callback_small (by simpa using hlen) rfl, hstands, rfl⟩
      rw [if_neg hsmall] at hs ⊢
      rw [if_neg hsmall]
      by_cases hinside : k + 1 ≤ block.length
      · rw [if_pos hinside] at hs
        obtain ⟨hstands, rfl⟩ := hs
        rw [List.drop_append_of_le_length hinside]
        by_cases hlen : n + 1 ≤ (block.drop (k + 1)).length
        · rw [List.take_append_of_le_length hlen]
          rw [List.length_drop] at hlen
          rw [if_pos (by omega)]
          refine ⟨_, callback_buffered hpos (by simpa using hlen), hstands, ?_⟩
          rw [List.drop_drop, hsum]
        · -- the block does not suffice
          obtain ⟨t, ht, htracks⟩ := callback_fill hbs hlies.tail hsized.tail
            heod hstands (block.drop (k + 1)) (by omega : _ < n + 1)
          have hall : (block.drop (k + 1)).take (n + 1) = block.drop (k + 1) :=
            List.take_of_length_le (by omega)
          refine ⟨t, ?_, ?_⟩
          · rw [ht, List.take_append, hall]
          · rw [List.length_drop] at hlen htracks
            rw [if_neg (by omega), Tracks.shift]
            rw [show n + 1 - (block.length - (k + 1)) =
              k + n + 1 + 1 - block.length by omega] at htracks
            exact htracks
      · rw [if_neg hinside, Tracks.shift] at hs
        obtain ⟨t, ht, htracks⟩ := ih hlies.tail hsized.tail hs
        have hused : block.drop (k + 1) = [] := List.drop_of_length_le (by omega)
        refine ⟨t, ?_, ?_⟩
        · rw [ht, List.drop_append, hused, List.nil_append]
        · rw [if_neg (by omega), Tracks.shift]
          rw [show k + 1 - block.length + (n + 1) =
            k + n + 1 + 1 - block.length by omega] at htracks
          exact htracks

/-- Parsing a section from tape gives the result of parsing its bytes, and
leaves the tape as far on as the parser has asked. -/
theorem parse_spec (P : PullParser β ρ) (hbs : 0 < bs) (hlies : Lies rs start bl closed)
    (hsized : Sized bs bl) (heod : KnowsEod rs closed eod) (fuel : ℕ) (fed : List β)
    {asked : ℕ} (hs : Tracks p rs eod start (progress bs closed bl asked) s) :
    ∃ t, parse P bs fuel fed s =
        ((P.runFrom fuel fed ((sectionBytes bs bl).drop asked) asked).1, t) ∧
      Tracks p rs eod start (progress bs closed bl
        (P.runFrom fuel fed ((sectionBytes bs bl).drop asked) asked).2) t := by
  induction fuel generalizing fed asked s with
  | zero => exact ⟨s, rfl, hs⟩
  | succ fuel ih =>
    rw [parse, PullParser.runFrom]
    cases P.next fed with
    | done result => exact ⟨s, rfl, hs⟩
    | more len =>
      dsimp only
      by_cases hzero : len = 0
      · subst hzero
        rw [xmlInputTapeReadCallback, if_pos rfl, if_pos List.take_zero]
        exact ⟨s, rfl, hs⟩
      obtain ⟨t, ht, htracks⟩ := xmlInputTapeReadCallback_spec hbs hlies hsized
        heod (Nat.pos_of_ne_zero hzero) hs
      rw [ht]
      rcases hbytes : ((sectionBytes bs bl).drop asked).take len with
        _ | ⟨byte, bytes⟩
      · rw [if_pos rfl]
        exact ⟨t, rfl, htracks⟩
      · rw [if_neg (by simp), List.drop_drop]
        exact ih _ htracks

end AuroraLtfs.Load
