import AuroraLtfs.Load.Input

/-!
# Reading an index

`ltfs_read_index` parses the section at the current position as a full index and
checks that it belongs to the volume and to its place on tape.  The XML parser
with the callbacks of `_xml_parse_schema` is a parameter: a pull parser whose
result is the return code and the index it has filled in.

`ltfsReadIndex_spec` says what the call makes of a section.  Whether the section
is accepted depends on its bytes alone; where the tape stops afterwards, and
whether the closing file mark counts as seen, also depends on how many bytes the
parser has asked for.
-/

namespace AuroraLtfs.Load

open AuroraLtfs.Tape

/-- Error returns of the functions that read an index. -/
inductive IndexError where
  | tape (e : TapeError)
  | noMemory
  | icuError
  | invalidPath
  | nametoolong
  | unsupportedIndexVersion
  | symlinkConflict
  | xmlIncIndex
  | indexInvalid
  | other (code : ℕ)
  /-- The bound on the rounds of a search is used up, which does not happen. -/
  | unfinished
  deriving DecidableEq, Repr

/-- A pointer as the document has it; `none` is a cleared partition. -/
structure TapePointer where
  partition : Option Char
  block : ℕ
  deriving DecidableEq, Repr

/-- The fields of `struct ltfs_index` that reading it fills in or checks. -/
structure IndexFile (σ : Type*) where
  version : ℕ
  writeVersion : ℕ
  volUuid : List Char
  generation : UInt32
  selfptr : TapePointer
  backptr : TapePointer
  symerrCount : ℕ
  tree : σ
  deriving DecidableEq

/-- The fields of `struct ltfs_label` that the readers use. -/
structure Label where
  blocksize : ℕ
  blocksize_pos : 0 < blocksize
  volUuid : List Char
  partitionId : Part → Char
  version : ℕ

/-- What `_xml_parse_schema` returns, `none` for success, and the index it has
filled in. -/
structure Parsed (σ : Type*) where
  ret : Option IndexError
  index : IndexFile σ
  deriving DecidableEq

/-- The parser of index documents, with directories or without, and the repair
of symbolic links that conflict with extents.  An empty input is no document. -/
structure Schema (σ β : Type*) where
  parser : Bool → PullParser β (Parsed σ)
  splitSymlink : IndexFile σ → Except IndexError (IndexFile σ)
  rejectsEmpty : ∀ skipDir, ∃ code,
    ((parser skipDir).result []).ret = some (.other code) ∧
      ((parser skipDir).result []).index.symerrCount = 0

/-- The fields of `struct tc_coherency` that name an index. -/
structure Coherency where
  uuid : List Char
  count : ℕ
  setId : ℕ
  deriving DecidableEq

/-- A volume while its indexes are being read. -/
structure LoadVol (σ β : Type*) where
  device : Device (List β)
  label : Label
  index : IndexFile σ
  ignoreWrongVersion : Bool
  coherency : Part → Coherency

abbrev LoadCall (σ β α : Type*) := Outcome IndexError (LoadVol σ β) α

variable {α σ β : Type*} {call : Device (List β) → TapeCall (Device (List β)) α}

namespace LoadVol

/-- Run a call of the tape layer. -/
def onDevice (v : LoadVol σ β)
    (call : Device (List β) → TapeCall (Device (List β)) α) : LoadCall σ β α :=
  match call v.device with
  | (.error e, d) => (.error (.tape e), { v with device := d })
  | (.ok a, d) => (.ok a, { v with device := d })

theorem onDevice_ok (v : LoadVol σ β) {a : α} {d : Device (List β)}
    (h : call v.device = (.ok a, d)) :
    v.onDevice call = (.ok a, { v with device := d }) := by
  simp [onDevice, h]

theorem onDevice_error (v : LoadVol σ β) {e : TapeError} {d : Device (List β)}
    (h : call v.device = (.error e, d)) :
    v.onDevice call = (.error (.tape e), { v with device := d }) := by
  simp [onDevice, h]

end LoadVol

/-- The bytes recorded on a partition. -/
def bytesRecorded (rs : List (Record (List β))) : ℕ :=
  (rs.map fun r => match r with
    | .filemark => 0
    | .block payload => payload.length).sum

/-- `xml_schema_from_tape`: whether the closing file mark has been seen. -/
def xmlSchemaFromTape (S : Schema σ β) (eodPos : ℕ) (skipDir : Bool)
    (v : LoadVol σ β) : LoadCall σ β Bool :=
  let rounds := bytesRecorded (v.device.medium v.device.position.partition) + 1
  let (parsed, input, d) := parse (S.parser skipDir) v.label.blocksize rounds []
    (⟨[], v.device.position.block, eodPos, false, false, none⟩, v.device)
  let v := { v with device := d, index := parsed.index }
  match input.errCode, parsed.ret with
  | some e, _ => (.error (.tape e), v)
  | none, some e => (.error e, v)
  | none, none => (.ok input.sawFileMark, v)

/-- Files with both extents and a link target: they are split on demand, and a
document without other faults then counts as read to its file mark. -/
def settleSymlinks (S : Schema σ β) (recoverSymlink : Bool)
    (ret : Except IndexError Bool) (index : IndexFile σ) :
    Except IndexError Bool × IndexFile σ :=
  if index.symerrCount = 0 then (ret, index)
  else if recoverSymlink then
    match S.splitSymlink index with
    | .error e => (.error e, { index with symerrCount := 0 })
    | .ok split => (if ret = .error .symlinkConflict then .ok true else ret,
        { split with symerrCount := 0 })
  else (ret, { index with symerrCount := 0 })

/-- `LTFS_INDEX_VERSION` and `LTFS_INDEX_VERSION_WRITE_MIN`. -/
def indexVersion : ℕ := 20500

def indexVersionWriteMin : ℕ := 20400

/-- `ltfs_index_write_version`. -/
def ltfsIndexWriteVersion (labelVersion version : ℕ) : ℕ :=
  let writeVersion :=
    if indexVersion ≤ version then indexVersion else indexVersionWriteMin
  min (max labelVersion writeVersion) indexVersion

/-- Subtraction of block numbers, which are 64 bits wide. -/
def subBlock (a b : ℕ) : ℕ := (a + (2 ^ 64 - b)) % 2 ^ 64

/-- The index is one of this volume, stands where it says, and its back pointer
may be one. -/
def indexFits (label : Label) (pos : Position) (index : IndexFile σ) : Bool :=
  index.volUuid.take 36 = label.volUuid.take 36 ∧
  (index.selfptr.partition = some (label.partitionId pos.partition) ∧
    index.selfptr.block = pos.block) ∧
  ¬(index.backptr.partition ≠ none ∧
    index.backptr.partition ≠ some (label.partitionId .dp)) ∧
  ¬(index.backptr.partition = index.selfptr.partition ∧
    index.selfptr.block ≠ 5 ∧
    index.backptr.block ≠ index.selfptr.block ∧
    subBlock index.selfptr.block 2 ≤ index.backptr.block) ∧
  ¬(index.backptr.partition ≠ none ∧ index.backptr.block < 5)

/-- `ltfs_read_index`: whether the index is closed by a file mark, behind which
the tape then stands. -/
def ltfsReadIndex (S : Schema σ β) (eodPos : ℕ) (recoverSymlink skipDir : Bool)
    (v : LoadVol σ β) : LoadCall σ β Bool :=
  let pos := v.device.position
  let (parsed, v) := xmlSchemaFromTape S eodPos skipDir v
  let (ret, index) := settleSymlinks S recoverSymlink parsed v.index
  match ret with
  | .error e => (.error e, { v with index := index })
  | .ok endFm =>
    let v := { v with index := { index with
      writeVersion := ltfsIndexWriteVersion v.label.version index.version } }
    if indexFits v.label pos v.index then
      if endFm then
        (v.onDevice (tapeSpacefm 1)).andThen fun _ v => (.ok true, v)
      else (.ok false, v)
    else (.error .indexInvalid, v)

/-! ## What a section is taken for -/

/-- The return code of a parse that has seen the closing file mark or not. -/
def Parsed.code (parsed : Parsed σ) (mark : Bool) : Except IndexError Bool :=
  match parsed.ret with
  | some e => .error e
  | none => .ok mark

/-- What the parser's result comes to at position `pos`: an error, or the index,
with a mark on one whose conflicts have been repaired. -/
def verdict (S : Schema σ β) (label : Label) (recoverSymlink : Bool)
    (pos : Position) (parsed : Parsed σ) : Except IndexError (IndexFile σ × Bool) :=
  match settleSymlinks S recoverSymlink (parsed.code false) parsed.index with
  | (.error e, _) => .error e
  | (.ok repaired, index) =>
    let index := { index with
      writeVersion := ltfsIndexWriteVersion label.version index.version }
    if indexFits label pos index then .ok (index, repaired)
    else .error .indexInvalid

/-- An index that has been accepted stands where it says. -/
theorem fits_of_verdict {S : Schema σ β} {label : Label} {recoverSymlink : Bool}
    {pos : Position} {parsed : Parsed σ} {index : IndexFile σ} {repaired : Bool}
    (h : verdict S label recoverSymlink pos parsed = .ok (index, repaired)) :
    index.selfptr.partition = some (label.partitionId pos.partition) ∧
      index.selfptr.block = pos.block := by
  rw [verdict] at h
  split at h
  · simp at h
  · dsimp only at h
    split_ifs at h with hfits
    simp only [Except.ok.injEq, Prod.mk.injEq] at h
    obtain ⟨rfl, rfl⟩ := h
    simp only [indexFits, decide_eq_true_eq] at hfits
    exact hfits.2.1

theorem verdict_empty (S : Schema σ β) (label : Label) (recoverSymlink : Bool)
    (pos : Position) (skipDir : Bool) : ∃ code,
    verdict S label recoverSymlink pos ((S.parser skipDir).result []) =
      .error (.other code) := by
  obtain ⟨code, hret, hcount⟩ := S.rejectsEmpty skipDir
  exact ⟨code, by simp [verdict, settleSymlinks, Parsed.code, hret, hcount]⟩

/-- Whether the file mark has been seen makes no other difference; a repaired
document counts as if it had been. -/
theorem settleSymlinks_mark (S : Schema σ β) (recoverSymlink mark : Bool)
    (parsed : Parsed σ) :
    settleSymlinks S recoverSymlink (parsed.code mark) parsed.index =
      ((settleSymlinks S recoverSymlink (parsed.code false) parsed.index).1.map
          (· || mark),
        (settleSymlinks S recoverSymlink (parsed.code false) parsed.index).2) := by
  unfold settleSymlinks Parsed.code
  by_cases hcount : parsed.index.symerrCount = 0
  · cases parsed.ret <;> simp [hcount, Except.map]
  cases recoverSymlink with
  | false => cases parsed.ret <;> simp [hcount, Except.map]
  | true =>
    cases S.splitSymlink parsed.index with
    | error e => simp [hcount, Except.map]
    | ok split =>
      cases parsed.ret with
      | none => simp [hcount, Except.map]
      | some e => by_cases he : e = .symlinkConflict <;>
          simp [hcount, he, Except.map]

section Section

variable {p : Part} {rs : List (Record (List β))} {start eod : ℕ}
  {bl : List (List β)} {closed : Bool} {v : LoadVol σ β}

/-- The volume's drive carries out every command and is at block `pos`. -/
structure LoadVol.Stands (p : Part) (rs : List (Record (List β)))
    (label : Label) (ignoreWrongVersion : Bool) (pos : ℕ) (v : LoadVol σ β) :
    Prop where
  device : v.device.Stands p rs pos
  label : v.label = label
  ignoreWrongVersion : v.ignoreWrongVersion = ignoreWrongVersion

theorem length_sectionBytes_le (bs : ℕ) (bl : List (List β)) :
    (sectionBytes bs bl).length ≤ bytesRecorded (blocks bl) := by
  induction bl with
  | nil => simp [sectionBytes]
  | cons block rest ih =>
    have hcons : bytesRecorded (blocks (block :: rest)) =
        block.length + bytesRecorded (blocks rest) := rfl
    rw [sectionBytes, hcons]
    split_ifs
    · omega
    · rw [List.length_append]
      omega

theorem Lies.length_le (h : Lies rs start bl closed) (bs : ℕ) :
    (sectionBytes bs bl).length ≤ bytesRecorded rs := by
  obtain ⟨front, tail, -, rfl, -⟩ := h
  have hsum : bytesRecorded (front ++ (blocks bl ++ tail)) =
      bytesRecorded front + (bytesRecorded (blocks bl) + bytesRecorded tail) := by
    simp [bytesRecorded]
  have := length_sectionBytes_le bs bl
  omega

/-- The tape does not leave the section. -/
theorem progress_moved_le (bs : ℕ) (closed : Bool) (bl : List (List β))
    (asked : ℕ) : (progress bs closed bl asked).moved ≤ bl.length := by
  induction bl generalizing asked with
  | nil =>
    cases asked with
    | zero => simp [progress]
    | succ k =>
      rw [progress]
      split_ifs <;> simp
  | cons block rest ih =>
    cases asked with
    | zero => simp [progress]
    | succ k =>
      rw [progress]
      split_ifs with hsmall hnil
      · simp
      · have := List.length_pos_of_ne_nil hnil
        simp only [List.length_cons]
        omega
      · simp
      · have := ih (k + 1 - block.length)
        simp only [Progress.shift, List.length_cons]
        omega

/-- A file mark that has been seen is the one that closes the section. -/
theorem closed_of_sawFileMark {bs asked : ℕ}
    (h : (progress bs closed bl asked).sawFileMark = true) :
    closed = true ∧ (progress bs closed bl asked).moved = bl.length := by
  induction bl generalizing asked with
  | nil =>
    cases asked with
    | zero => simp [progress] at h
    | succ k =>
      cases closed
      · simp [progress] at h
      · exact ⟨rfl, rfl⟩
  | cons block rest ih =>
    cases asked with
    | zero => simp [progress] at h
    | succ k =>
      rw [progress] at h ⊢
      by_cases hsmall : block.length < bs
      · rw [if_pos hsmall] at h ⊢
        simp only [Bool.and_eq_true, decide_eq_true_eq] at h
        obtain ⟨rfl, rfl⟩ := h
        exact ⟨rfl, rfl⟩
      rw [if_neg hsmall] at h ⊢
      by_cases hinside : k + 1 ≤ block.length
      · rw [if_pos hinside] at h
        simp at h
      · rw [if_neg hinside] at h ⊢
        obtain ⟨hclosed, hmoved⟩ := ih h
        exact ⟨hclosed, by simp [Progress.shift, hmoved]⟩

/-- Parsing the section the tape stands at. -/
theorem xmlSchemaFromTape_spec (S : Schema σ β) (skipDir : Bool)
    (hv : v.device.Stands p rs start) (hlies : Lies rs start bl closed)
    (hsized : Sized v.label.blocksize bl) (heod : KnowsEod rs closed eod) :
    let bytes := sectionBytes v.label.blocksize bl
    let parsed := (S.parser skipDir).result bytes
    let g := progress v.label.blocksize closed bl ((S.parser skipDir).demand bytes)
    ∃ d, xmlSchemaFromTape S eod skipDir v = (parsed.code g.sawFileMark,
        { v with device := d, index := parsed.index }) ∧
      d.Stands p rs (start + g.moved) := by
  intro bytes parsed g
  have hstart : Tracks p rs eod start
      (progress v.label.blocksize closed bl 0)
      (⟨[], start, eod, false, false, none⟩, v.device) := by
    rw [progress]
    exact ⟨hv, rfl⟩
  obtain ⟨⟨x, d⟩, hparse, hstands, hx⟩ := parse_spec (S.parser skipDir)
    v.label.blocksize_pos hlies hsized heod (bytesRecorded rs + 1) [] hstart
  rw [List.drop_zero, (S.parser skipDir).runFrom_of_lt _ _
    (Nat.lt_succ_of_le (hlies.length_le _))] at hparse hstands hx
  refine ⟨d, ?_, hstands⟩
  obtain rfl : x = ⟨g.buf, start + g.counted, eod, g.sawSmallBlock,
    g.sawFileMark, none⟩ := hx
  rw [xmlSchemaFromTape, hv.position, hv.medium]
  dsimp only
  rw [hparse]
  change (match (none : Option TapeError), parsed.ret with
    | some e, _ => _
    | none, some e => _
    | none, none => _) = _
  unfold Parsed.code
  cases parsed.ret <;> rfl

/-- What reading the section comes to: the return, with the index, and how many
blocks the tape has moved on. -/
def readEnd (judged : Except IndexError (IndexFile σ × Bool)) (g : Progress β)
    (length : ℕ) (closed : Bool) : Except IndexError (Bool × IndexFile σ) × ℕ :=
  match judged with
  | .error e => (.error e, g.moved)
  | .ok (index, repaired) =>
    if repaired || g.sawFileMark then
      -- the file mark is taken for seen, and spaced over
      if closed then (.ok (true, index), length + 1)
      else (.error (.tape .eodDetected), length)
    else (.ok (false, index), g.moved)

/-- Reading the section the tape stands at. -/
theorem ltfsReadIndex_spec (S : Schema σ β) (recoverSymlink skipDir : Bool)
    {label : Label} {ignoreWrongVersion : Bool}
    (hv : v.Stands p rs label ignoreWrongVersion start) (hlies : Lies rs start bl closed)
    (hsized : Sized label.blocksize bl) (heod : KnowsEod rs closed eod) :
    let bytes := sectionBytes label.blocksize bl
    let judged := verdict S label recoverSymlink ⟨p, start⟩
      ((S.parser skipDir).result bytes)
    let g := progress label.blocksize closed bl ((S.parser skipDir).demand bytes)
    let stop := readEnd judged g bl.length closed
    ∃ w, ltfsReadIndex S eod recoverSymlink skipDir v = (stop.1.map Prod.fst, w) ∧
      w.Stands p rs label ignoreWrongVersion (start + stop.2) ∧
      ∀ mark index, stop.1 = .ok (mark, index) → w.index = index := by
  obtain ⟨hdevice, rfl, rfl⟩ := hv
  intro bytes judged g stop
  obtain ⟨d, hparse, hd⟩ := xmlSchemaFromTape_spec S skipDir hdevice hlies hsized heod
  obtain ⟨parsed, hparsed⟩ : ∃ parsed, parsed = (S.parser skipDir).result bytes := ⟨_, rfl⟩
  have hjudged : judged = verdict S v.label recoverSymlink ⟨p, start⟩ parsed := by
    rw [hparsed]
  rw [← hparsed] at hparse
  have hmark := settleSymlinks_mark S recoverSymlink g.sawFileMark parsed
  rw [verdict] at hjudged
  rw [ltfsReadIndex, hparse, hdevice.position]
  dsimp only
  rw [hmark]
  rcases hsettled : settleSymlinks S recoverSymlink (parsed.code false)
    parsed.index with ⟨e | repaired, index⟩
  · have hstop : stop = (.error e, g.moved) := by
      simp only [stop, hjudged, hsettled, readEnd]
    rw [hstop]
    exact ⟨{ v with device := d, index := index }, rfl, ⟨hd, rfl, rfl⟩, by simp⟩
  obtain ⟨filed, hfiled⟩ : ∃ filed : IndexFile σ, filed = { index with
    writeVersion := ltfsIndexWriteVersion v.label.version index.version } := ⟨_, rfl⟩
  dsimp only [Except.map]
  rw [hsettled] at hjudged
  dsimp only at hjudged
  rw [← hfiled] at hjudged ⊢
  by_cases hfits : indexFits v.label ⟨p, start⟩ filed = true
  · rw [if_pos hfits] at hjudged ⊢
    have hstop : stop = readEnd (.ok (filed, repaired)) g bl.length closed := by
      rw [← hjudged]
    rw [hstop, readEnd]
    by_cases hmarked : (repaired || g.sawFileMark) = true
    · rw [if_pos hmarked, if_pos hmarked]
      cases closed with
      | true =>
        obtain ⟨e, hspace, he⟩ := hd.spaceForward
          (hlies.forward (progress_moved_le _ _ _ _))
        rw [if_pos rfl, LoadVol.onDevice_ok _ hspace, Outcome.andThen_ok]
        exact ⟨_, rfl, ⟨he, rfl, rfl⟩, by simp⟩
      | false =>
        obtain ⟨e, hspace, he⟩ := hd.spaceForward_fails (hlies.forward_eod g.moved)
        rw [if_neg (by simp), LoadVol.onDevice_error _ hspace, Outcome.andThen_error]
        exact ⟨_, rfl, ⟨he, rfl, rfl⟩, by simp⟩
    · rw [if_neg hmarked, if_neg hmarked]
      exact ⟨_, rfl, ⟨hd, rfl, rfl⟩, by simp⟩
  · rw [if_neg hfits] at hjudged ⊢
    have hstop : stop = (.error .indexInvalid, g.moved) := by
      simp only [stop, hjudged, readEnd]
    rw [hstop]
    exact ⟨_, rfl, ⟨hd, rfl, rfl⟩, by simp⟩

end Section

end AuroraLtfs.Load
