import AuroraLtfs.Load.Seek

/-!
# Which index the search finds

`lastIndex` is the last section of a partition that is a full index of the
volume at its own place.  `ltfs_seek_index` is to find it, and to report blocks
behind it exactly where something other than its closing file mark follows.

It does so unless a section behind stops the search, the index follows the
label without a file mark of its own, or the report at the end of the partition
goes wrong.  The report takes the place where the reading has stopped for the end
of the index.  A parser that is served from full blocks does not come to see the
closing file mark, and behind a small block the record that follows is read and
not given back.
-/

namespace AuroraLtfs.Load

open AuroraLtfs.Tape

variable {σ β : Type*}

/-- A section that is an index: the sections in front of it, the nearest first,
those behind it, and the index. -/
structure Hit (σ β : Type*) where
  before : List (Section β)
  here : Section β
  after : List (Section β)
  index : IndexFile σ
  repaired : Bool

/-- The sections behind come to no more than a closing file mark. -/
def endsHere : List (Section β) → Bool
  | [] => true
  | [last] => decide (last.blocks = [])
  | _ => false

/-- Something other than its closing file mark follows the index. -/
def Hit.Followed (h : Hit σ β) : Prop :=
  h.here.trailing ≠ [] ∨ endsHere h.after = false

section Last

variable (S : Schema σ β) (label : Label) (p : Part) (recoverSymlink : Bool)

def hit (before : List (Section β)) (s : Section β) (after : List (Section β)) :
    Option (Hit σ β) :=
  match verdictAt S label p recoverSymlink before s with
  | .ok (index, repaired) => some ⟨before, s, after, index, repaired⟩
  | .error _ => none

/-- The last index at or in front of section `s`. -/
def lastIndexFrom : List (Section β) → Section β → List (Section β) →
    Option (Hit σ β)
  | [], s, after => hit S label p recoverSymlink [] s after
  | prev :: before, s, after =>
    (hit S label p recoverSymlink (prev :: before) s after).or
      (lastIndexFrom before prev (s :: after))

/-- The last section of the partition that is an index of the volume. -/
def lastIndex (L : Layout label.blocksize β) : Option (Hit σ β) :=
  match L.sections.reverse with
  | [] => none
  | last :: before => lastIndexFrom S label p recoverSymlink before last []

/-- What the search is to return: the last index with a true report of what
follows it, or that there is none. -/
def SeeksLast (L : Layout label.blocksize β) (r : LoadCall σ β SeekResult) : Prop :=
  match lastIndex S label p recoverSymlink L with
  | none => r.1 = .ok ⟨L.records.length, none⟩
  | some h => ∃ found, r.1 = .ok ⟨L.records.length, some found⟩ ∧
      r.2.index = h.index ∧ (found.blocksAfter = true ↔ h.Followed)

/-- Where the partition ends in the index, the reading stops at its end: with
the last block of the partition, or by seeing the file mark that is the last
record, exactly if no blocks trail the index.  The conflicts of an index
without a closing file mark are not repaired. -/
def Hit.StopsAtEnd (h : Hit σ β) : Prop :=
  let g := progressAt S label h.here h.after
  match h.after with
  | [] => h.repaired = false ∧
      (g.moved = h.here.blocks.length ↔ h.here.trailing = [])
  | [last] => last.blocks = [] →
      ((h.repaired || g.sawFileMark) = true ↔ h.here.trailing = [])
  | _ => True

/-- Going back from section `s`, nothing stops the search before the last index,
which is not the first section and where the reading stops at its end. -/
def SearchableFrom (ignoreWrongVersion : Bool) :
    List (Section β) → Section β → List (Section β) → Prop
  | [], s, _ => ∃ e, verdictAt S label p recoverSymlink [] s = .error e
  | prev :: before, s, after =>
    match verdictAt S label p recoverSymlink (prev :: before) s with
    | .ok (index, repaired) =>
      Hit.StopsAtEnd S label ⟨prev :: before, s, after, index, repaired⟩
    | .error e => stopsSearch ignoreWrongVersion e = false ∧
        SearchableFrom ignoreWrongVersion before prev (s :: after)

def Searchable (ignoreWrongVersion : Bool) (L : Layout label.blocksize β) : Prop :=
  match L.sections.reverse with
  | [] => True
  | last :: before =>
    SearchableFrom S label p recoverSymlink ignoreWrongVersion before last []

end Last

/-- `SeeksLast`, of the search as the sections have it. -/
def FindsLast (last : Option (Hit σ β))
    (found : Except IndexError (Option (Found × IndexFile σ))) : Prop :=
  match last with
  | none => found = .ok none
  | some h => ∃ report, found = .ok (some (report, h.index)) ∧
      (report.blocksAfter = true ↔ h.Followed)

section Iff

variable {S : Schema σ β} {label : Label} {p : Part} {recoverSymlink : Bool}
  {ignoreWrongVersion : Bool} {L : Layout label.blocksize β}
  {before after : List (Section β)} {prev s : Section β}

/-- A file mark is seen only where there is one. -/
theorem progressAt_unclosed : (progressAt S label s []).sawFileMark = false := by
  by_contra hseen
  have hclosed := (closed_of_sawFileMark (Bool.not_eq_false _ ▸ hseen)).1
  simp at hclosed

theorem findsLast_some (h : Hit σ β) (report : Found) :
    FindsLast (some h) (.ok (some (report, h.index))) ↔
      (report.blocksAfter = true ↔ h.Followed) := by
  simp [FindsLast]

/-- The search has come to the last index. -/
theorem searchEnd_hit_iff
    (h : L.sections = (prev :: before).reverse ++ s :: after)
    {index : IndexFile σ} {repaired : Bool}
    (hverdict : verdictAt S label p recoverSymlink (prev :: before) s =
      .ok (index, repaired)) :
    FindsLast (some ⟨prev :: before, s, after, index, repaired⟩)
        (searchEnd S label p recoverSymlink ignoreWrongVersion L.records.length
          (prev :: before) s after) ↔
      Hit.StopsAtEnd S label ⟨prev :: before, s, after, index, repaired⟩ := by
  have hlength := Layout.length_records h
  have hmoved : (progressAt S label s after).moved ≤ s.blocks.length :=
    progress_moved_le _ _ _ _
  simp only [searchEnd, readAt, hverdict, readEnd]
  rcases after with _ | ⟨last, _ | ⟨next, rest⟩⟩
  · simp only [List.map_nil, List.sum_nil, Nat.add_zero] at hlength
    rw [progressAt_unclosed, Bool.or_false, hlength]
    cases repaired with
    | true =>
      -- the step over a file mark that is not there fails, and the search goes on
      constructor
      · rintro ⟨report, hfound, -⟩
        have hblock : index.selfptr.block = startBehind (prev :: before) :=
          (fits_of_verdict hverdict).2
        have hle := (searchEnd_selfptr hfound).2
        rw [hblock, startBehind_cons] at hle
        omega
      · rintro ⟨hrepaired, -⟩
        simp at hrepaired
    | false =>
      rw [if_neg (by simp), findsLast_some]
      simp [Hit.StopsAtEnd, Hit.Followed, endsHere, not_iff_not]
  · simp only [List.map_cons, List.map_nil, List.sum_cons, List.sum_nil] at hlength
    have hclosed : decide ([last] ≠ []) = true := by simp
    rw [hclosed, if_pos rfl]
    by_cases hmark : (repaired || (progressAt S label s [last]).sawFileMark) = true
    · have hreport : startBehind (prev :: before) + (s.blocks.length + 1) ≠
          L.records.length ↔ last.blocks ≠ [] := by
        rw [← List.length_pos_iff_ne_nil]
        omega
      rw [if_pos hmark, findsLast_some]
      simp only [decide_eq_true_eq, hreport, Hit.Followed, endsHere,
        decide_eq_false_iff_not, Hit.StopsAtEnd, hmark]
      tauto
    · have hreport : startBehind (prev :: before) +
          (progressAt S label s [last]).moved ≠ L.records.length := by omega
      rw [if_neg hmark, findsLast_some]
      simp only [decide_eq_true_eq, Hit.Followed, endsHere,
        decide_eq_false_iff_not, Hit.StopsAtEnd, hmark]
      tauto
  · simp only [List.map_cons, List.sum_cons] at hlength
    have hclosed : decide (last :: next :: rest ≠ []) = true := by simp
    rw [hclosed, if_pos rfl]
    have hmore : startBehind (prev :: before) + (s.blocks.length + 1) ≠
        L.records.length := by omega
    have hstop : startBehind (prev :: before) +
        (progressAt S label s (last :: next :: rest)).moved ≠
        L.records.length := by omega
    split_ifs
    · rw [findsLast_some]
      simp [hmore, Hit.Followed, endsHere, Hit.StopsAtEnd]
    · rw [findsLast_some]
      simp [hstop, Hit.Followed, endsHere, Hit.StopsAtEnd]

/-- From any section on back. -/
theorem searchEnd_iff (h : L.sections = before.reverse ++ s :: after) :
    FindsLast (lastIndexFrom S label p recoverSymlink before s after)
        (searchEnd S label p recoverSymlink ignoreWrongVersion L.records.length
          before s after) ↔
      SearchableFrom S label p recoverSymlink ignoreWrongVersion before s after := by
  induction before generalizing s after with
  | nil =>
    rw [lastIndexFrom, hit, SearchableFrom, searchEnd]
    cases hverdict : verdictAt S label p recoverSymlink [] s with
    | error e => simp [FindsLast]
    | ok r => simp [FindsLast]
  | cons prev before ih =>
    have hprev : L.sections = before.reverse ++ prev :: s :: after := by
      simpa using h
    rw [lastIndexFrom, hit, SearchableFrom]
    cases hverdict : verdictAt S label p recoverSymlink (prev :: before) s with
    | ok r =>
      dsimp only [Option.or]
      exact searchEnd_hit_iff h hverdict
    | error e =>
      have hread : (readAt S label p recoverSymlink (prev :: before) s after).1 =
          .error e := by
        rw [readAt, hverdict]
        rfl
      dsimp only [Option.or]
      simp only [searchEnd, hread]
      by_cases hstops : stopsSearch ignoreWrongVersion e = true
      · rw [if_pos hstops]
        simp only [hstops, Bool.true_eq_false, false_and, iff_false]
        cases lastIndexFrom S label p recoverSymlink before prev (s :: after) <;>
          simp [FindsLast]
      · rw [if_neg hstops]
        simp only [Bool.not_eq_true] at hstops
        simp only [hstops, true_and]
        exact ih hprev

end Iff

/-- An empty section at the end makes no difference. -/
theorem search_iff (S : Schema σ β) (label : Label) (p : Part)
    (recoverSymlink ignoreWrongVersion : Bool) (L : Layout label.blocksize β) :
    FindsLast (lastIndex S label p recoverSymlink L)
        (search S label p recoverSymlink ignoreWrongVersion L) ↔
      Searchable S label p recoverSymlink ignoreWrongVersion L := by
  simp only [lastIndex, search, Searchable]
  rcases hsections : L.sections.reverse with _ | ⟨last, before⟩
  · simp [FindsLast]
  have hlast : L.sections = before.reverse ++ last :: [] := by
    rw [← L.sections.reverse_reverse, hsections, List.reverse_cons]
  dsimp only
  have hsearch : FindsLast (lastIndexFrom S label p recoverSymlink before last [])
      (searchEnd S label p recoverSymlink ignoreWrongVersion L.records.length
        before last []) ↔
      SearchableFrom S label p recoverSymlink ignoreWrongVersion before last [] :=
    searchEnd_iff hlast
  by_cases hempty : last.blocks = []
  · rw [if_pos hempty]
    cases before with
    | nil => exact hsearch
    | cons prev before =>
      have hprev : L.sections = before.reverse ++ prev :: [last] := by
        simpa using hlast
      obtain ⟨code, hcode⟩ := verdict_empty S label recoverSymlink
        ⟨p, startBehind (prev :: before)⟩ false
      have hverdict : verdictAt S label p recoverSymlink (prev :: before) last =
          .error (.other code) := by
        rw [verdictAt, hempty]
        exact hcode
      rw [lastIndexFrom, hit, SearchableFrom, hverdict]
      dsimp only [Option.or, stopsSearch]
      rw [searchEnd_iff hprev]
      simp
  · rw [if_neg hempty]
    exact hsearch

/-- `ltfs_seek_index` finds the last index of the partition, or that there is
none, and reports truly what follows it, exactly where the partition is
searchable. -/
theorem ltfsSeekIndex_seeksLast_iff (S : Schema σ β) (p : Part)
    (recoverSymlink : Bool) (v : LoadVol σ β) (hv : v.device.Responsive)
    (L : Layout v.label.blocksize β) (hL : v.device.medium p = L.records) :
    SeeksLast S v.label p recoverSymlink L (ltfsSeekIndex S p recoverSymlink v) ↔
      Searchable S v.label p recoverSymlink v.ignoreWrongVersion L := by
  rw [← search_iff]
  obtain ⟨w, hw, hindex⟩ := ltfsSeekIndex_spec S p recoverSymlink v hv L hL
  rw [hw]
  unfold SeeksLast FindsLast
  cases lastIndex S v.label p recoverSymlink L with
  | none =>
    rcases search S v.label p recoverSymlink v.ignoreWrongVersion L with
      e | _ | ⟨report, index⟩ <;> simp [Except.map]
  | some h =>
    dsimp only
    generalize search S v.label p recoverSymlink v.ignoreWrongVersion L = found at hindex
    rcases found with e | _ | ⟨report, index⟩
    · simp [Except.map]
    · simp [Except.map]
    · rw [hindex report index rfl]
      simp [Except.map, and_assoc]

/-! ## Partitions with one index -/

/-- An index of four bytes: its tag, its place and its generation. -/
def tinyParser : PullParser ℕ (Parsed Unit) where
  next fed := if fed.length < 4 then .more (4 - fed.length) else .done (decode fed)
  atEnd := decode
where
  /-- A tag of 7 is an index, one of 8 an index of a later version. -/
  decode : List ℕ → Parsed Unit
    | [7, block, generation, _] => ⟨none, index block generation⟩
    | [8, block, generation, _] =>
      ⟨some .unsupportedIndexVersion, index block generation⟩
    | _ => ⟨some (.other 0), index 0 0⟩
  index (block generation : ℕ) : IndexFile Unit :=
    { version := 20500
      writeVersion := 0
      volUuid := []
      generation := generation.toUInt32
      selfptr := ⟨some 'b', block⟩
      backptr := ⟨none, 0⟩
      symerrCount := 0
      tree := () }

def tinySchema : Schema Unit ℕ where
  parser _ := tinyParser
  splitSymlink index := .ok index
  rejectsEmpty _ := ⟨0, rfl, rfl⟩

def tinyLabel (bs : ℕ) : Label where
  blocksize := bs + 1
  blocksize_pos := bs.succ_pos
  volUuid := []
  partitionId p := if p = .ip then 'a' else 'b'
  version := 20500

/-- A partition whose last section but empty ones holds an index at block 5,
followed by the blocks `trailing` and, if `closed`, by a file mark. -/
def tinySections (trailing : List (List ℕ)) (closed : Bool) : List (Section ℕ) :=
  [⟨[], []⟩, ⟨[[7, 5, 1, 0]], trailing⟩] ++ if closed then [⟨[], []⟩] else []

def tinyLayout (bs : ℕ) (sections : List (Section ℕ)) (hne : sections ≠ [])
    (hsized : ∀ s ∈ sections, Sized (bs + 1) s.blocks) :
    Layout (tinyLabel bs).blocksize ℕ where
  label := [.block [0], .filemark, .block [0]]
  sections := sections
  length_label := rfl
  sections_ne_nil := hne
  sized := hsized

def tinyVolume (bs : ℕ) (rs : List (Record (List ℕ))) : LoadVol Unit ℕ where
  device := loaded fun _ => rs
  label := tinyLabel bs
  index := tinyParser.index 0 0
  ignoreWrongVersion := false
  coherency _ := ⟨[], 0, 0⟩

/-- An index closed by the last record of the partition, in a small block. -/
def closedLayout : Layout (tinyLabel 7).blocksize ℕ :=
  tinyLayout 7 (tinySections [] true) (by decide) (by decide)

theorem ltfsSeekIndex_seeksLast_closed :
    SeeksLast tinySchema (tinyLabel 7) .dp false closedLayout
      (ltfsSeekIndex tinySchema .dp false (tinyVolume 7 closedLayout.records)) := by
  have hsearchable : Searchable tinySchema (tinyLabel 7) .dp false false
      closedLayout := ⟨rfl, fun _ => ⟨fun _ => rfl, fun _ => rfl⟩⟩
  exact (ltfsSeekIndex_seeksLast_iff tinySchema .dp false
    (tinyVolume 7 closedLayout.records) (loaded_responsive _) closedLayout rfl).mpr
    hsearchable

/-- An index in a small block with one more block behind it. -/
def trailedLayout : Layout (tinyLabel 7).blocksize ℕ :=
  tinyLayout 7 (tinySections [[1]] false) (by decide) (by decide)

/-- An index that fills its block, closed by the last record of the partition. -/
def filledLayout : Layout (tinyLabel 3).blocksize ℕ :=
  tinyLayout 3 (tinySections [] true) (by decide) (by decide)

/-- An index followed by one of a version that is not supported. -/
def laterLayout : Layout (tinyLabel 7).blocksize ℕ :=
  tinyLayout 7 (tinySections [] false ++ [⟨[[8, 7, 2, 0]], []⟩]) (by decide)
    (by decide)

/-- An index that follows the label without a file mark of its own. -/
def firstLayout : Layout (tinyLabel 7).blocksize ℕ :=
  tinyLayout 7 [⟨[[7, 4, 1, 0]], []⟩, ⟨[], []⟩] (by decide) (by decide)

/-- The block behind a small block is taken for a part of the index, and the
file mark behind a full one is not seen.  An index of a later version ends the
search, and the section behind the label is not looked at. -/
theorem ltfsSeekIndex_misreports :
    ¬SeeksLast tinySchema (tinyLabel 7) .dp false trailedLayout
      (ltfsSeekIndex tinySchema .dp false (tinyVolume 7 trailedLayout.records)) ∧
    ¬SeeksLast tinySchema (tinyLabel 3) .dp false filledLayout
      (ltfsSeekIndex tinySchema .dp false (tinyVolume 3 filledLayout.records)) ∧
    ¬SeeksLast tinySchema (tinyLabel 7) .dp false laterLayout
      (ltfsSeekIndex tinySchema .dp false (tinyVolume 7 laterLayout.records)) ∧
    ¬SeeksLast tinySchema (tinyLabel 7) .dp false firstLayout
      (ltfsSeekIndex tinySchema .dp false (tinyVolume 7 firstLayout.records)) := by
  refine ⟨?_, ?_, ?_, ?_⟩
  · rintro ⟨found, hfound, -, hafter⟩
    have hresult : (ltfsSeekIndex tinySchema .dp false
        (tinyVolume 7 trailedLayout.records)).1 = .ok ⟨7, some ⟨7, false, false⟩⟩ := by
      decide +kernel
    rw [hresult] at hfound
    simp only [Except.ok.injEq, SeekResult.mk.injEq, Option.some.injEq] at hfound
    rw [← hfound.2] at hafter
    exact absurd (hafter.mpr (.inl (by decide))) (by decide)
  · rintro ⟨found, hfound, -, hafter⟩
    have hresult : (ltfsSeekIndex tinySchema .dp false
        (tinyVolume 3 filledLayout.records)).1 = .ok ⟨7, some ⟨6, false, true⟩⟩ := by
      decide +kernel
    rw [hresult] at hfound
    simp only [Except.ok.injEq, SeekResult.mk.injEq, Option.some.injEq] at hfound
    rw [← hfound.2] at hafter
    rcases hafter.mp rfl with htrailing | hbehind
    · exact htrailing rfl
    · exact absurd hbehind (by decide)
  · rintro ⟨found, hfound, -⟩
    have hresult : (ltfsSeekIndex tinySchema .dp false
        (tinyVolume 7 laterLayout.records)).1 = .error .unsupportedIndexVersion := by
      decide +kernel
    rw [hresult] at hfound
    cases hfound
  · rintro ⟨found, hfound, -⟩
    have hresult : (ltfsSeekIndex tinySchema .dp false
        (tinyVolume 7 firstLayout.records)).1 = .ok ⟨6, none⟩ := by
      decide +kernel
    rw [hresult] at hfound
    cases hfound

end AuroraLtfs.Load
