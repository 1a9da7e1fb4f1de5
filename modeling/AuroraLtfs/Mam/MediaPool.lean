import AuroraLtfs.Mam.Attribute

/-!
# Name and additional information of the media pool

Both are kept in one attribute, as `name[info]`, as `name` alone or as `[info]` alone.
Setting one of them reads the other out of the attribute and packs the two again.  As an
empty name is packed like none, it reads as none.
-/

namespace AuroraLtfs.Mam

def bracketOpen : UInt8 := 0x5B

def bracketClose : UInt8 := 0x5D

/-- The loop over the attribute up to its closing bracket: where the only opening one is. -/
def findAddInfo : List UInt8 → ℕ → Option ℕ → Option ℕ
  | [], _, addStart => addStart
  | c :: cs, i, addStart =>
    if c = bracketOpen then
      if addStart.isSome then none else findAddInfo cs (i + 1) (some i)
    else if c = bracketClose then none
    else findAddInfo cs (i + 1) addStart

/-- Name and information, where there are any. -/
def tapeGetMediaPoolInfo (pool : List UInt8) : Option (List UInt8) × Option (List UInt8) :=
  if pool = [] then (none, none)
  else
    match if pool.getLast? = some bracketClose then findAddInfo pool.dropLast 0 none
      else none with
    | some addStart =>
      (if addStart ≠ 0 then some (pool.take addStart) else none,
        some (pool.drop (addStart + 1)).dropLast)
    | none => (some pool, none)

/-- Reading `ltfs.mediaPool.name` or `ltfs.mediaPool.additionalInfo`.  `none` is
`-LTFS_NO_XATTR`. -/
def readMediaPool (isName : Bool) (v : Volume) : Option (List UInt8) :=
  if isName then (tapeGetMediaPoolInfo v.tAttr.mediaPool).1
  else (tapeGetMediaPoolInfo v.tAttr.mediaPool).2

/-- The formats `%s`, `%s[%s]` and `[%s]`. -/
def pack (name : List UInt8) : Option (List UInt8) → List UInt8
  | none => name
  | some info => name ++ bracketOpen :: (info ++ [bracketClose])

/-- `newVal` is cut at its first NUL. -/
def tapeSetMediaPoolInfo (write : Option MamError) (newVal : List UInt8) (isName : Bool)
    (v : Volume) : Except MamError Unit × Volume :=
  let val := newVal.takeWhile (· ≠ 0)
  if bracketOpen ∈ val ∨ bracketClose ∈ val then (.error .badArg, v)
  else
    let cur := tapeGetMediaPoolInfo v.tAttr.mediaPool
    let value := if isName then pack val cur.2 else pack (cur.1.getD []) (some val)
    updateTapeAttribute write (.mediaPool (some value) value.length) v

/-! ## Packing -/

/-- Without brackets. -/
def Plain (text : List UInt8) : Prop := bracketOpen ∉ text ∧ bracketClose ∉ text

theorem findAddInfo_plain {text : List UInt8} (h : Plain text) (rest : List UInt8) (i : ℕ)
    (addStart : Option ℕ) :
    findAddInfo (text ++ rest) i addStart = findAddInfo rest (i + text.length) addStart := by
  induction text generalizing i with
  | nil => rfl
  | cons c cs ih =>
    simp only [Plain, List.mem_cons, not_or] at h
    rw [List.cons_append, findAddInfo, if_neg (Ne.symm h.1.1), if_neg (Ne.symm h.2.1),
      ih ⟨h.1.2, h.2.2⟩, List.length_cons]
    congr 1
    omega

/-- What has been packed is found again, but for an empty name. -/
theorem tapeGetMediaPoolInfo_pack {name : List UInt8} {info : Option (List UInt8)}
    (hname : Plain name) (hinfo : ∀ text, info = some text → Plain text) :
    tapeGetMediaPoolInfo (pack name info) = (if name ≠ [] then some name else none, info) := by
  cases info with
  | none =>
    have hlast : name.getLast? ≠ some bracketClose := fun h =>
      hname.2 (List.mem_of_getLast? h)
    by_cases hempty : name = []
    · simp [tapeGetMediaPoolInfo, pack, hempty]
    · simp [tapeGetMediaPoolInfo, pack, hempty, hlast]
  | some text =>
    have hpack : pack name (some text) = (name ++ bracketOpen :: text) ++ [bracketClose] := by
      simp [pack]
    have hfind : findAddInfo (name ++ bracketOpen :: text) 0 none = some name.length := by
      have htext := findAddInfo_plain (hinfo text rfl) [] (0 + name.length + 1)
        (some (0 + name.length))
      rw [List.append_nil] at htext
      rw [findAddInfo_plain hname, findAddInfo, if_pos rfl, if_neg (by simp), htext]
      simp [findAddInfo]
    rw [tapeGetMediaPoolInfo, hpack, if_neg (by simp), List.getLast?_concat, if_pos rfl,
      List.dropLast_concat, hfind]
    have htake : (name ++ bracketOpen :: text ++ [bracketClose]).take name.length = name := by
      simp
    have hdrop : (name ++ bracketOpen :: text ++ [bracketClose]).drop (name.length + 1) =
        text ++ [bracketClose] := by
      simp [← List.drop_drop]
    simp only [htake, hdrop, List.dropLast_concat, ne_eq, List.length_eq_zero_iff]

/-! ## Runs -/

/-- Sets that all succeed; each is of the name or of the information. -/
def setMediaPools : List (Bool × List UInt8) → Volume → Except MamError Volume
  | [], v => .ok v
  | (isName, newVal) :: sets, v =>
    match tapeSetMediaPoolInfo none newVal isName v with
    | (.error e, _) => .error e
    | (.ok (), v) => setMediaPools sets v

/-- The value last set, or `start` if there was none. -/
def lastSet (isName : Bool) (start : Option (List UInt8)) :
    List (Bool × List UInt8) → Option (List UInt8)
  | [] => start
  | set :: sets => lastSet isName (if set.1 = isName then some set.2 else start) sets

/-- The attribute holds a name and an information without brackets. -/
structure Holds (name : List UInt8) (info : Option (List UInt8)) (v : Volume) : Prop where
  packed : v.tAttr.mediaPool = pack name info
  name : Plain name
  info : ∀ text, info = some text → Plain text

variable {name : List UInt8} {info : Option (List UInt8)} {v w : Volume}

theorem Holds.read (h : Holds name info v) :
    readMediaPool true v = (if name ≠ [] then some name else none) ∧
      readMediaPool false v = info := by
  have hget := tapeGetMediaPoolInfo_pack h.name h.info
  rw [← h.packed] at hget
  simp [readMediaPool, hget]

/-- A set that succeeds replaces one of the two. -/
theorem Holds.set (h : Holds name info v) {newVal : List UInt8} {isName : Bool}
    (htext : 0 ∉ newVal) (hset : tapeSetMediaPoolInfo none newVal isName v = (.ok (), w)) :
    Holds (if isName then newVal else name) (if isName then info else some newVal) w := by
  have hval : newVal.takeWhile (· ≠ 0) = newVal := by
    rw [List.takeWhile_eq_self_iff]
    intro c hc
    simpa using fun h0 : c = 0 => htext (h0 ▸ hc)
  have hget := tapeGetMediaPoolInfo_pack h.name h.info
  rw [← h.packed] at hget
  have hcur : (if name ≠ [] then some name else none).getD [] = name := by
    by_cases hempty : name = [] <;> simp [hempty]
  rw [tapeSetMediaPoolInfo, hval, hget] at hset
  dsimp only at hset
  rw [hcur] at hset
  by_cases hbrackets : bracketOpen ∈ newVal ∨ bracketClose ∈ newVal
  · simp [hbrackets] at hset
  · rw [if_neg hbrackets] at hset
    rw [not_or] at hbrackets
    have hpacked := updateTapeAttribute_mediaPool hset
    cases isName with
    | true => exact ⟨hpacked, hbrackets, h.info⟩
    | false =>
      refine ⟨hpacked, h.name, ?_⟩
      rintro text ⟨⟩
      exact hbrackets

/-- After any successful sets both read as they were last set, but an empty name reads as
none. -/
theorem readMediaPool_lastSet (sets : List (Bool × List UInt8))
    (htexts : ∀ set ∈ sets, 0 ∉ set.2) (hstart : Holds name info v)
    (hsets : setMediaPools sets v = .ok w) :
    readMediaPool true w = (lastSet true (some name) sets).filter (· ≠ []) ∧
      readMediaPool false w = lastSet false info sets := by
  induction sets generalizing name info v with
  | nil =>
    obtain rfl : v = w := by simpa [setMediaPools] using hsets
    obtain ⟨hname, hinfo⟩ := hstart.read
    refine ⟨?_, hinfo⟩
    rw [hname, lastSet, Option.filter_some]
    simp
  | cons set sets ih =>
    obtain ⟨isName, newVal⟩ := set
    rw [setMediaPools] at hsets
    cases hset : tapeSetMediaPoolInfo none newVal isName v with
    | mk ret u =>
      rw [hset] at hsets
      cases ret with
      | error e => simp at hsets
      | ok _ =>
        have hnext := hstart.set (htexts (isName, newVal) (by simp)) hset
        have hread := ih (fun s hs => htexts s (by simp [hs])) hnext hsets
        cases isName <;> simpa [lastSet] using hread

theorem readMediaPool_after_two :
    readMediaPool true ⟨[0], ⟨[], [], 0, [0x41, 0x5B, 0x42, 0x5D]⟩,
        ⟨[], [], 0, [0x41, 0x5B, 0x42, 0x5D]⟩⟩ = some [0x41] ∧
      readMediaPool false ⟨[0], ⟨[], [], 0, [0x41, 0x5B, 0x42, 0x5D]⟩,
        ⟨[], [], 0, [0x41, 0x5B, 0x42, 0x5D]⟩⟩ = some [0x42] :=
  readMediaPool_lastSet [(false, [0x42]), (true, [0x41])] (by decide)
    (show Holds [] none ⟨[0], ⟨[], [], 0, []⟩, ⟨[], [], 0, []⟩⟩ from
      ⟨rfl, by simp [Plain], by simp⟩) rfl

/-- A name that has been set to the empty text, with success, is not found.  Nor is the
information `i` that has been set beside the name `a]`, which no set has left there. -/
theorem readMediaPool_empty_name :
    ((tapeSetMediaPoolInfo none [] true ⟨[0], ⟨[], [], 0, []⟩, ⟨[], [], 0, []⟩⟩).1 = .ok () ∧
      readMediaPool true (tapeSetMediaPoolInfo none [] true
        ⟨[0], ⟨[], [], 0, []⟩, ⟨[], [], 0, []⟩⟩).2 = none) ∧
    ((tapeSetMediaPoolInfo none [0x69] false
        ⟨[0], ⟨[], [], 0, [0x61, 0x5D]⟩, ⟨[], [], 0, [0x61, 0x5D]⟩⟩).1 = .ok () ∧
      readMediaPool false (tapeSetMediaPoolInfo none [0x69] false
        ⟨[0], ⟨[], [], 0, [0x61, 0x5D]⟩, ⟨[], [], 0, [0x61, 0x5D]⟩⟩).2 = none) :=
  ⟨⟨rfl, rfl⟩, rfl, rfl⟩

end AuroraLtfs.Mam
