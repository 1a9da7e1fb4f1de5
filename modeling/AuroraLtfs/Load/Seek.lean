import AuroraLtfs.Load.Index

/-!
# Searching a partition for its last index

`ltfs_seek_index` walks back from end of data, file mark by file mark, and tries
to read each section as an index.  A partition is laid out as its label and a
sequence of sections, each opened by a file mark; `searchEnd` is the search as
the sections have it, and `ltfsSeekIndex_spec` connects the two.
-/

namespace AuroraLtfs.Load

open AuroraLtfs.Tape

variable {σ β : Type*}

/-- The outputs of `ltfs_seek_index` where it finds an index. -/
structure Found where
  indexEndPos : ℕ
  fmAfter : Bool
  blocksAfter : Bool
  deriving DecidableEq, Repr

/-- The end of data, and what has been found in front of it; `none` is a return
of 1. -/
structure SeekResult where
  eodPos : ℕ
  found : Option Found
  deriving DecidableEq, Repr

/-- The errors that end the search. -/
def stopsSearch (ignoreWrongVersion : Bool) : IndexError → Bool
  | .noMemory | .icuError | .invalidPath | .nametoolong => true
  | .unsupportedIndexVersion => !ignoreWrongVersion
  | _ => false

/-- The loop of `ltfs_seek_index`.  Every round goes back by at least a file mark,
so the end of data bounds the number of rounds. -/
def seekLoop (S : Schema σ β) (recoverSymlink : Bool) (eod : ℕ) :
    ℕ → LoadVol σ β → LoadCall σ β (Option Found)
  | 0, v => (.error .unfinished, v)
  | fuel + 1, v =>
    -- the end of the partition label
    if v.device.position.block = 3 then (.ok none, v)
    else (v.onDevice (tapeSpacefm 1)).andThen fun _ v =>
      match ltfsReadIndex S eod recoverSymlink false v with
      | (.error e, v) =>
        if stopsSearch v.ignoreWrongVersion e then (.error e, v)
        else (v.onDevice (tapeSpacefm (-2))).andThen fun _ v =>
          seekLoop S recoverSymlink eod fuel v
      | (.ok mark, v) =>
        (.ok (some ⟨v.device.position.block, mark,
          v.device.position.block ≠ eod⟩), v)

def noteCoherency (p : Part) (v : LoadVol σ β) : LoadVol σ β :=
  let found : Coherency :=
    ⟨v.label.volUuid, v.index.generation.toNat, v.index.selfptr.block⟩
  { v with coherency := Function.update v.coherency p found }

/-- The end of `ltfs_seek_index`: the index is on the partition searched. -/
def endSeek (p : Part) (eod : ℕ) (found : Option Found) (v : LoadVol σ β) :
    LoadCall σ β SeekResult :=
  match found with
  | none => (.ok ⟨eod, none⟩, v)
  | some found =>
    if v.index.selfptr.partition ≠ some (v.label.partitionId p) then
      (.error .indexInvalid, v)
    else (.ok ⟨eod, some found⟩, noteCoherency p v)

/-- `ltfs_seek_index`. -/
def ltfsSeekIndex (S : Schema σ β) (p : Part) (recoverSymlink : Bool)
    (v : LoadVol σ β) : LoadCall σ β SeekResult :=
  (v.onDevice (tapeSeekEod p)).andThen fun _ v =>
    let eod := v.device.position.block
    -- nothing on the partition except the label
    if eod ≤ 4 then (.ok ⟨eod, none⟩, v)
    else (v.onDevice (tapeSpacefm (-1))).andThen fun _ v =>
      if v.device.position.block = 3 then (.ok ⟨eod, none⟩, v)
      else (if v.device.position.block = eod - 1 then
          v.onDevice (tapeSpacefm (-1)) else (.ok (), v)).andThen fun _ v =>
        (seekLoop S recoverSymlink eod eod v).andThen (endSeek p eod)

/-! ## Partitions as sequences of sections -/

/-- What a file mark opens: the blocks of a file, an index for instance, and
blocks that trail it. -/
structure Section (β : Type*) where
  file : List (List β)
  trailing : List (List β)

namespace Section

def blocks (s : Section β) : List (List β) := s.file ++ s.trailing

def records (s : Section β) : List (Record (List β)) :=
  .filemark :: Tape.blocks s.blocks

@[simp]
theorem length_records (s : Section β) : s.records.length = s.blocks.length + 1 := by
  simp [records]

end Section

/-- The contents of a partition of a volume with blocks of `bs` bytes: three
records of the label, whose closing file mark opens the first section. -/
structure Layout (bs : ℕ) (β : Type*) where
  label : List (Record (List β))
  sections : List (Section β)
  length_label : label.length = 3
  sections_ne_nil : sections ≠ []
  sized : ∀ s ∈ sections, Sized bs s.blocks

namespace Layout

variable {bs : ℕ}

def records (L : Layout bs β) : List (Record (List β)) :=
  L.label ++ L.sections.flatMap Section.records

end Layout

/-- The first block behind the file mark that opens a section, where `before`
are the sections in front of it. -/
def startBehind (before : List (Section β)) : ℕ :=
  4 + (before.map fun s => s.blocks.length + 1).sum

section Search

variable (S : Schema σ β) (label : Label) (p : Part) (recoverSymlink : Bool)

/-- What a section is taken for; `before` are the sections in front of it. -/
def verdictAt (before : List (Section β)) (s : Section β) :
    Except IndexError (IndexFile σ × Bool) :=
  verdict S label recoverSymlink ⟨p, startBehind before⟩
    ((S.parser false).result (sectionBytes label.blocksize s.blocks))

/-- How far the parser makes the tape move in a section. -/
def progressAt (s : Section β) (after : List (Section β)) : Progress β :=
  progress label.blocksize (decide (after ≠ [])) s.blocks
    ((S.parser false).demand (sectionBytes label.blocksize s.blocks))

def readAt (before : List (Section β)) (s : Section β)
    (after : List (Section β)) : Except IndexError (Bool × IndexFile σ) × ℕ :=
  readEnd (verdictAt S label p recoverSymlink before s)
    (progressAt S label s after) s.blocks.length (decide (after ≠ []))

/-- The search from section `s` back, with the sections in front of it in reverse
order.  The first section is never tried. -/
def searchEnd (ignoreWrongVersion : Bool) (eod : ℕ) : List (Section β) →
    Section β → List (Section β) → Except IndexError (Option (Found × IndexFile σ))
  | [], _, _ => .ok none
  | prev :: before, s, after =>
    let stop := readAt S label p recoverSymlink (prev :: before) s after
    let last := startBehind (prev :: before) + stop.2
    match stop.1 with
    | .ok (mark, index) => .ok (some (⟨last, mark, decide (last ≠ eod)⟩, index))
    | .error e =>
      if stopsSearch ignoreWrongVersion e then .error e
      else searchEnd ignoreWrongVersion eod before prev (s :: after)

/-- The search of a whole partition.  An empty section at the end is passed
over. -/
def search (ignoreWrongVersion : Bool) (L : Layout label.blocksize β) :
    Except IndexError (Option (Found × IndexFile σ)) :=
  let eod := L.records.length
  match L.sections.reverse with
  | [] => .ok none
  | last :: before =>
    if last.blocks = [] then
      match before with
      | [] => .ok none
      | prev :: before =>
        searchEnd S label p recoverSymlink ignoreWrongVersion eod before prev [last]
    else searchEnd S label p recoverSymlink ignoreWrongVersion eod before last []

end Search

/-! ## The walk over the sections -/

theorem startBehind_cons (prev : Section β) (before : List (Section β)) :
    startBehind (prev :: before) = startBehind before + prev.blocks.length + 1 := by
  simp only [startBehind, List.map_cons, List.sum_cons]
  omega

section Placed

variable {bs : ℕ} {L : Layout bs β} {before after : List (Section β)}
  {prev s : Section β}

section Current

variable (h : L.sections = before.reverse ++ s :: after)

include h

/-- Where a section lies on the partition. -/
theorem Layout.records_eq :
    ∃ front, front.length + 1 = startBehind before ∧
      L.records = front ++ .filemark :: (Tape.blocks s.blocks ++
        after.flatMap Section.records) := by
  refine ⟨L.label ++ before.reverse.flatMap Section.records, ?_, ?_⟩
  · have hsum : (before.reverse.map fun s => s.blocks.length + 1).sum =
        (before.map fun s => s.blocks.length + 1).sum := by
      rw [List.map_reverse, List.sum_reverse]
    rw [List.length_append, L.length_label, List.length_flatMap, startBehind, ← hsum]
    simp only [Section.length_records]
    omega
  · rw [Layout.records, h, List.flatMap_append, List.flatMap_cons,
      Section.records, List.append_assoc, List.cons_append]

theorem Layout.lies : Lies L.records (startBehind before) s.blocks (decide (after ≠ [])) := by
  obtain ⟨front, hlength, hrecords⟩ := Layout.records_eq h
  refine ⟨front ++ [.filemark], after.flatMap Section.records, by simpa using hlength,
    by simp [hrecords], ?_⟩
  cases after with
  | nil => simp
  | cons next rest => simp [Section.records]

theorem Layout.length_records :
    L.records.length = startBehind before + s.blocks.length +
      (after.map fun s => s.blocks.length + 1).sum := by
  obtain ⟨front, hlength, hrecords⟩ := Layout.records_eq h
  rw [hrecords, List.length_append, List.length_cons, List.length_append,
    length_blocks, List.length_flatMap]
  simp only [Section.length_records]
  omega

theorem Layout.mem_sections : s ∈ L.sections := by
  simp [h]

/-- One file mark back from inside a section. -/
theorem Layout.back (count : ℕ) {k : ℕ} (hk : k ≤ s.blocks.length) :
    spaceBackward L.records (count + 1) (startBehind before + k) =
      spaceBackward L.records count (startBehind before - 1) := by
  obtain ⟨front, hlength, hrecords⟩ := Layout.records_eq h
  rw [← hlength, spaceBackward_one hrecords count k hk, Nat.add_sub_cancel]

end Current

/-- Two file marks back, in front of the section before. -/
theorem Layout.back_two (h : L.sections = (prev :: before).reverse ++ s :: after)
    {k : ℕ} (hk : k ≤ s.blocks.length) :
    spaceBackward L.records 2 (startBehind (prev :: before) + k) =
      .ok (startBehind before - 1) := by
  have hprev : L.sections = before.reverse ++ prev :: s :: after := by
    simpa using h
  rw [Layout.back h 1 hk, startBehind_cons, Nat.add_sub_cancel,
    Layout.back hprev 0 le_rfl, spaceBackward]

/-- From the file mark that opens a section to its first block. -/
theorem Layout.into (h : L.sections = before.reverse ++ s :: after) :
    spaceForward L.records 1 (startBehind before - 1) =
      .ok (startBehind before) := by
  obtain ⟨front, hlength, hrecords⟩ := Layout.records_eq h
  have hmark : L.records = front ++ (Tape.blocks [] ++ .filemark ::
      (Tape.blocks s.blocks ++ after.flatMap Section.records)) := hrecords
  have hspace := spaceForward_one hmark 0 le_rfl
  rw [← hlength]
  simpa using hspace

end Placed

section Loop

variable {S : Schema σ β} {label : Label} {p : Part} {recoverSymlink : Bool}
  {ignoreWrongVersion : Bool} {L : Layout label.blocksize β}
  {before after : List (Section β)} {prev s : Section β} {v : LoadVol σ β}

theorem readAt_error {e : IndexError} {stop : ℕ}
    (h : readAt S label p recoverSymlink before s after = (.error e, stop)) :
    stop ≤ s.blocks.length := by
  have hmoved : (progressAt S label s after).moved ≤ s.blocks.length :=
    progress_moved_le _ _ _ _
  unfold readAt readEnd at h
  split at h
  · simp only [Prod.mk.injEq] at h
    rw [← h.2]
    exact hmoved
  · split_ifs at h <;> simp only [Prod.mk.injEq, reduceCtorEq, false_and] at h
    rw [← h.2]

/-- Reading a section of the partition. -/
theorem ltfsReadIndex_at (S : Schema σ β) (recoverSymlink : Bool)
    (h : L.sections = before.reverse ++ s :: after)
    (hv : v.Stands p L.records label ignoreWrongVersion (startBehind before)) :
    let stop := readAt S label p recoverSymlink before s after
    ∃ w, ltfsReadIndex S L.records.length recoverSymlink false v =
        (stop.1.map Prod.fst, w) ∧
      w.Stands p L.records label ignoreWrongVersion
        (startBehind before + stop.2) ∧
      ∀ mark index, stop.1 = .ok (mark, index) → w.index = index := by
  have hlength := Layout.length_records h
  apply ltfsReadIndex_spec S recoverSymlink false hv (Layout.lies h)
    (L.sized s (Layout.mem_sections h))
  left
  refine ⟨rfl, ?_⟩
  rw [hlength, startBehind]
  omega

/-- The loop, from the file mark that opens a section. -/
theorem seekLoop_spec (h : L.sections = before.reverse ++ s :: after)
    (hv : v.Stands p L.records label ignoreWrongVersion (startBehind before - 1))
    {fuel : ℕ} (hfuel : before.length < fuel) :
    let found := searchEnd S label p recoverSymlink ignoreWrongVersion
      L.records.length before s after
    ∃ w, seekLoop S recoverSymlink L.records.length fuel v =
        (found.map (Option.map Prod.fst), w) ∧ w.label = label ∧
      ∀ report index, found = .ok (some (report, index)) → w.index = index := by
  intro found
  obtain ⟨fuel, rfl⟩ : ∃ n, fuel = n + 1 := ⟨fuel - 1, by omega⟩
  induction before generalizing s after v fuel with
  | nil =>
    have hfirst : v.device.position.block = 3 := by
      rw [hv.device.position]
      rfl
    refine ⟨v, ?_, hv.label, by simp [found, searchEnd]⟩
    rw [seekLoop, if_pos hfirst]
    rfl
  | cons prev before ih =>
    have hlater : v.device.position.block ≠ 3 := by
      rw [hv.device.position, startBehind_cons, startBehind]
      simp only
      omega
    obtain ⟨d, hinto, hd⟩ := hv.device.spaceForward (Layout.into h)
    obtain ⟨w, hw, hstands, hindex⟩ := ltfsReadIndex_at S recoverSymlink h
      (v := { v with device := d }) ⟨hd, hv.label, hv.ignoreWrongVersion⟩
    rw [seekLoop, if_neg hlater, v.onDevice_ok hinto, Outcome.andThen_ok, hw]
    simp only [found, searchEnd]
    rcases hstop : readAt S label p recoverSymlink (prev :: before) s after with
      ⟨e | ⟨mark, index⟩, stop⟩
    · rw [hstop] at hstands
      dsimp only [Except.map]
      rw [hstands.ignoreWrongVersion]
      split_ifs with hends
      · exact ⟨w, rfl, hstands.label, by simp⟩
      · obtain ⟨d', hback, hd'⟩ : ∃ d', tapeSpacefm (-2) w.device = (.ok (), d') ∧
            d'.Stands p L.records (startBehind before - 1) :=
          hstands.device.spaceBackward (Layout.back_two h (readAt_error hstop))
        have hprev : L.sections = before.reverse ++ prev :: s :: after := by
          simpa using h
        obtain ⟨fuel, rfl⟩ : ∃ n, fuel = n + 1 := ⟨fuel - 1, by simp at hfuel; omega⟩
        have hloop := ih hprev (v := { w with device := d' })
          ⟨hd', hstands.label, hstands.ignoreWrongVersion⟩ fuel
          (by simpa using hfuel)
        rw [w.onDevice_ok hback, Outcome.andThen_ok]
        exact hloop
    · rw [hstop] at hstands hindex
      have hblock : w.device.position.block = startBehind (prev :: before) + stop := by
        rw [hstands.device.position]
      refine ⟨w, ?_, hstands.label, ?_⟩
      · dsimp only [Except.map, Option.map]
        rw [hblock]
      · rintro report index' ⟨rfl, rfl⟩
        exact hindex mark index rfl

theorem readAt_ok {mark : Bool} {index : IndexFile σ} {stop : ℕ}
    (h : readAt S label p recoverSymlink before s after = (.ok (mark, index), stop)) :
    ∃ repaired, verdictAt S label p recoverSymlink before s =
      .ok (index, repaired) := by
  unfold readAt readEnd at h
  split at h
  · simp at h
  · rename_i index' repaired hverdict
    split_ifs at h <;>
      simp only [Prod.mk.injEq, reduceCtorEq, false_and, Except.ok.injEq] at h
    · obtain ⟨⟨-, rfl⟩, -⟩ := h
      exact ⟨repaired, hverdict⟩
    · obtain ⟨⟨-, rfl⟩, -⟩ := h
      exact ⟨repaired, hverdict⟩

/-- An index that is found stands where it says, at or in front of where the
search began. -/
theorem searchEnd_selfptr {eod : ℕ} {report : Found} {index : IndexFile σ}
    (h : searchEnd S label p recoverSymlink ignoreWrongVersion eod before s after =
      .ok (some (report, index))) :
    index.selfptr.partition = some (label.partitionId p) ∧
      index.selfptr.block ≤ startBehind before := by
  induction before generalizing s after with
  | nil => simp [searchEnd] at h
  | cons prev before ih =>
    simp only [searchEnd] at h
    rcases hstop : readAt S label p recoverSymlink (prev :: before) s after with
      ⟨e | ⟨mark, index'⟩, stop⟩
    · rw [hstop] at h
      dsimp only at h
      split_ifs at h
      obtain ⟨hpart, hblock⟩ := ih h
      refine ⟨hpart, hblock.trans ?_⟩
      rw [startBehind_cons]
      omega
    · rw [hstop] at h
      simp only [Except.ok.injEq, Option.some.injEq, Prod.mk.injEq] at h
      obtain ⟨-, rfl⟩ := h
      obtain ⟨repaired, hverdict⟩ := readAt_ok hstop
      obtain ⟨hpart, hblock⟩ := fits_of_verdict hverdict
      exact ⟨hpart, hblock.le⟩

/-- The loop and what follows it. -/
theorem seekLoop_endSeek (h : L.sections = before.reverse ++ s :: after)
    (hv : v.Stands p L.records label ignoreWrongVersion (startBehind before - 1)) :
    let found := searchEnd S label p recoverSymlink ignoreWrongVersion
      L.records.length before s after
    ∃ w, (seekLoop S recoverSymlink L.records.length L.records.length v).andThen
        (endSeek p L.records.length) =
        (found.map fun r => ⟨L.records.length, r.map Prod.fst⟩, w) ∧
      ∀ report index, found = .ok (some (report, index)) → w.index = index := by
  intro found
  have hfuel : before.length < L.records.length := by
    have hsum := List.length_le_sum_of_one_le
      (before.map fun s => s.blocks.length + 1) (by simp)
    rw [List.length_map] at hsum
    rw [Layout.length_records h, startBehind]
    omega
  obtain ⟨w, hw, hlabel, hindex⟩ := seekLoop_spec (S := S) h hv hfuel
  rw [hw]
  change ∃ w', Outcome.andThen (found.map _, w) _ = _ ∧ _
  rcases hfound : found with e | _ | ⟨report, index⟩
  · exact ⟨w, rfl, by simp⟩
  · exact ⟨w, rfl, by simp⟩
  · have hself : w.index.selfptr.partition = some (w.label.partitionId p) := by
      rw [hindex report index hfound, hlabel]
      exact (searchEnd_selfptr hfound).1
    refine ⟨noteCoherency p w, ?_, ?_⟩
    · dsimp only [Except.map, Option.map, Outcome.andThen]
      rw [endSeek, if_neg (not_not.mpr hself)]
    · rintro report' index' ⟨rfl, rfl⟩
      exact hindex report index hfound

end Loop

/-- The search as the sections have it is what `ltfs_seek_index` does. -/
theorem ltfsSeekIndex_spec (S : Schema σ β) (p : Part) (recoverSymlink : Bool)
    (v : LoadVol σ β) (hv : v.device.Responsive) (L : Layout v.label.blocksize β)
    (hL : v.device.medium p = L.records) :
    let found := search S v.label p recoverSymlink v.ignoreWrongVersion L
    ∃ w, ltfsSeekIndex S p recoverSymlink v =
        (found.map fun r => ⟨L.records.length, r.map Prod.fst⟩, w) ∧
      ∀ report index, found = .ok (some (report, index)) → w.index = index := by
  intro found
  obtain ⟨d, heod, hd⟩ := tapeSeekEod_stands hv p
  rw [hL] at hd
  rw [ltfsSeekIndex, v.onDevice_ok heod, Outcome.andThen_ok, hd.position]
  dsimp only
  simp only [found, search]
  rcases hsections : L.sections.reverse with _ | ⟨last, before⟩
  · exact absurd (List.reverse_eq_nil_iff.mp hsections) L.sections_ne_nil
  have hlast : L.sections = before.reverse ++ last :: [] := by
    rw [← L.sections.reverse_reverse, hsections, List.reverse_cons]
  have hlength : L.records.length = startBehind before + last.blocks.length := by
    rw [Layout.length_records hlast]
    rfl
  have hback := Layout.back hlast 0 le_rfl
  rw [← hlength, spaceBackward] at hback
  obtain ⟨d', hspace, hd'⟩ : ∃ d', tapeSpacefm (-1) d = (.ok (), d') ∧
      d'.Stands p L.records (startBehind before - 1) := hd.spaceBackward hback
  have hstep := LoadVol.onDevice_ok { v with device := d } hspace
  cases before with
  | nil =>
    -- no file mark behind the label
    have hnone : (if last.blocks = [] then .ok none else
        searchEnd S v.label p recoverSymlink v.ignoreWrongVersion
          L.records.length [] last [] :
        Except IndexError (Option (Found × IndexFile σ))) = .ok none := by
      split_ifs <;> rfl
    dsimp only
    rw [hnone]
    split_ifs with hempty
    · exact ⟨_, rfl, by simp⟩
    · rw [hstep, Outcome.andThen_ok, if_pos (by rw [hd'.position]; rfl)]
      exact ⟨_, rfl, by simp⟩
  | cons prev before =>
    have hstart := startBehind_cons prev before
    have hfour : 4 ≤ startBehind before := by
      rw [startBehind]
      omega
    rw [if_neg (by omega), hstep, Outcome.andThen_ok, hd'.position]
    dsimp only
    rw [if_neg (by omega)]
    by_cases hempty : last.blocks = []
    · rw [if_pos hempty, if_pos (by rw [hempty] at hlength; simp at hlength; omega)]
      have hprev : L.sections = before.reverse ++ prev :: [last] := by
        simpa using hlast
      have hback' := Layout.back hprev 0 le_rfl
      rw [show startBehind before + prev.blocks.length =
        startBehind (prev :: before) - 1 by omega, spaceBackward] at hback'
      obtain ⟨d'', hspace', hd''⟩ : ∃ d'', tapeSpacefm (-1) d' = (.ok (), d'') ∧
          d''.Stands p L.records (startBehind before - 1) :=
        hd'.spaceBackward hback'
      rw [LoadVol.onDevice_ok { v with device := d' } hspace', Outcome.andThen_ok]
      exact seekLoop_endSeek hprev ⟨hd'', rfl, rfl⟩
    · have hpos := List.length_pos_of_ne_nil hempty
      rw [if_neg hempty, if_neg (by omega), Outcome.andThen_ok]
      exact seekLoop_endSeek hlast ⟨hd', rfl, rfl⟩

end AuroraLtfs.Load
