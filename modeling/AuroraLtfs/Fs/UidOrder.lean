import AuroraLtfs.Fs.Dentry

/-!
# Children in the order of their uids

The children of a directory are sorted by uid before they are listed or written into
an index.  The comparison function returns the difference of two 64-bit uids as an
`int`.  It agrees with the order of the uids only for those that differ, modulo 2³²,
by less than 2³¹; uids further apart are listed in the wrong order, or the order
depends on how the sort compares them.
-/

namespace AuroraLtfs.Fs

/-- `struct name_list` -/
structure NameList where
  name : Name
  uid : Fin (2 ^ 64)
  d : ℕ
  deriving DecidableEq

/-- The difference is computed with 64 bits and returned as an `int`. -/
def fsHashSortByUid (a b : NameList) : ℤ :=
  ((a.uid - b.uid).val : ℤ).bmod (2 ^ 32)

/-- `cmp` orders the entries totally. -/
structure TotalOn (cmp : NameList → NameList → ℤ) (entries : List NameList) : Prop where
  total : ∀ a ∈ entries, ∀ b ∈ entries, cmp a b ≤ 0 ∨ cmp b a ≤ 0
  trans : ∀ a ∈ entries, ∀ b ∈ entries, ∀ c ∈ entries,
    cmp a b ≤ 0 → cmp b c ≤ 0 → cmp a c ≤ 0
  antisymm : ∀ a ∈ entries, ∀ b ∈ entries, cmp a b ≤ 0 → cmp b a ≤ 0 → a = b

/-- `HASH_SORT`: the entries are rearranged, and sorted if the comparison function
orders them totally. -/
structure HashSort where
  sort : (NameList → NameList → ℤ) → List NameList → List NameList
  perm : ∀ cmp entries, (sort cmp entries).Perm entries
  sorted : ∀ cmp entries, TotalOn cmp entries →
    (sort cmp entries).Pairwise fun a b => cmp a b ≤ 0

/-- The children in the order `_xml_write_dirtree` writes them. -/
def xmlWriteDirtree (hash : HashSort) (childList : List NameList) : List NameList :=
  hash.sort fsHashSortByUid childList

/-- The children `ltfs_fsops_readdir` hands to `filler`, which may refuse to take
more. -/
def ltfsFsopsReaddir (hash : HashSort) (filler : NameList → Bool)
    (childList : List NameList) : List NameList :=
  let entries := hash.sort fsHashSortByUid childList
  entries.take ((entries.takeWhile filler).length + 1)

/-- The uids go up strictly. -/
def InUidOrder (entries : List NameList) : Prop :=
  entries.Pairwise fun a b => a.uid < b.uid

/-- The `int` that is returned has the sign of the difference. -/
def Close (a b : Fin (2 ^ 64)) : Prop :=
  0 < (b.val - a.val) % 2 ^ 32 ∧ (b.val - a.val) % 2 ^ 32 < 2 ^ 31

instance (a b : Fin (2 ^ 64)) : Decidable (Close a b) :=
  inferInstanceAs (Decidable (_ ∧ _))

/-- Reducing modulo 2⁶⁴ first makes no difference. -/
theorem bmod_sub {x y : ℕ} (hy : y < 2 ^ 64) :
    (((2 ^ 64 - y + x) % 2 ^ 64 : ℕ) : ℤ).bmod (2 ^ 32) =
      ((x : ℤ) - y).bmod (2 ^ 32) := by
  rw [Int.bmod, Int.bmod]
  push_cast
  omega

theorem fsHashSortByUid_eq (a b : NameList) :
    fsHashSortByUid a b = ((a.uid.val : ℤ) - b.uid.val).bmod (2 ^ 32) := by
  unfold fsHashSortByUid
  rw [Fin.val_sub]
  exact bmod_sub b.uid.isLt

theorem close_iff {a b : NameList} (h : a.uid < b.uid) :
    Close a.uid b.uid ↔ fsHashSortByUid a b ≤ 0 ∧ 0 < fsHashSortByUid b a := by
  rw [fsHashSortByUid_eq, fsHashSortByUid_eq, Close]
  rw [Fin.lt_def] at h
  simp only [Int.bmod]
  omega

section Order

variable {childList : List NameList}

/-- Among uids that are close the comparison is the one of the uids. -/
theorem fsHashSortByUid_le_iff
    (h : ∀ a ∈ childList, ∀ b ∈ childList, a.uid < b.uid → Close a.uid b.uid)
    {a b : NameList} (ha : a ∈ childList) (hb : b ∈ childList) :
    fsHashSortByUid a b ≤ 0 ↔ a.uid ≤ b.uid := by
  rcases lt_trichotomy a.uid b.uid with hlt | heq | hgt
  · exact iff_of_true ((close_iff hlt).1 (h a ha b hb hlt)).1 hlt.le
  · refine iff_of_true ?_ heq.le
    rw [fsHashSortByUid_eq, heq, sub_self]
    decide
  · have hpos := ((close_iff hgt).1 (h b hb a ha hgt)).2
    exact iff_of_false (not_le.2 hpos) (not_le.2 hgt)

theorem totalOn_of_close (hdistinct : (childList.map NameList.uid).Nodup)
    (h : ∀ a ∈ childList, ∀ b ∈ childList, a.uid < b.uid → Close a.uid b.uid) :
    TotalOn fsHashSortByUid childList where
  total a ha b hb := by
    rw [fsHashSortByUid_le_iff h ha hb, fsHashSortByUid_le_iff h hb ha]
    exact le_total _ _
  trans a ha b hb c hc := by
    rw [fsHashSortByUid_le_iff h ha hb, fsHashSortByUid_le_iff h hb hc,
      fsHashSortByUid_le_iff h ha hc]
    exact le_trans
  antisymm a ha b hb := by
    rw [fsHashSortByUid_le_iff h ha hb, fsHashSortByUid_le_iff h hb ha]
    exact fun hab hba => List.inj_on_of_nodup_map hdistinct ha hb (le_antisymm hab hba)

/-- Children with close uids are sorted. -/
theorem HashSort.inUidOrder (hash : HashSort)
    (hdistinct : (childList.map NameList.uid).Nodup)
    (h : ∀ a ∈ childList, ∀ b ∈ childList, a.uid < b.uid → Close a.uid b.uid) :
    InUidOrder (hash.sort fsHashSortByUid childList) := by
  have hperm := hash.perm fsHashSortByUid childList
  have hsorted := hash.sorted _ _ (totalOn_of_close hdistinct h)
  have hne : (hash.sort fsHashSortByUid childList).Pairwise fun a b => a.uid ≠ b.uid := by
    have := (hperm.map NameList.uid).nodup_iff.2 hdistinct
    exact List.pairwise_map.1 this
  refine (hsorted.and hne).imp_of_mem fun ha hb hab => ?_
  have hle := (fsHashSortByUid_le_iff h (hperm.mem_iff.1 ha) (hperm.mem_iff.1 hb)).1 hab.1
  exact lt_of_le_of_ne hle hab.2

end Order

/-! ## Sorts that meet the assumption -/

section Fallback

open Classical

/-- Sort the entries with merge sort. -/
noncomputable def mergeEntries (cmp : NameList → NameList → ℤ)
    (entries : List NameList) : List NameList :=
  (entries.attach.mergeSort fun a b => cmp a.1 b.1 ≤ 0).map Subtype.val

theorem mergeEntries_perm (cmp : NameList → NameList → ℤ) (entries : List NameList) :
    (mergeEntries cmp entries).Perm entries := by
  have hperm := (List.mergeSort_perm entries.attach fun a b => cmp a.1 b.1 ≤ 0).map
    Subtype.val
  rw [List.attach_map_subtype_val] at hperm
  exact hperm

theorem mergeEntries_sorted {cmp : NameList → NameList → ℤ} {entries : List NameList}
    (h : TotalOn cmp entries) :
    (mergeEntries cmp entries).Pairwise fun a b => cmp a b ≤ 0 := by
  rw [mergeEntries, List.pairwise_map]
  refine (List.pairwise_mergeSort (l := entries.attach) ?_ ?_).imp ?_
  · intro a b c hab hbc
    simp only [decide_eq_true_eq] at hab hbc ⊢
    exact h.trans a.1 a.2 b.1 b.2 c.1 c.2 hab hbc
  · intro a b
    simpa using h.total a.1 a.2 b.1 b.2
  · intro a b hab
    simpa using hab

/-- A sort that puts `fallback` for the entries the comparison function does not
order. -/
noncomputable def HashSort.withFallback (fallback : List NameList → List NameList)
    (hperm : ∀ entries, (fallback entries).Perm entries) : HashSort where
  sort cmp entries :=
    if TotalOn cmp entries then mergeEntries cmp entries else fallback entries
  perm cmp entries := by
    split_ifs
    · exact mergeEntries_perm cmp entries
    · exact hperm entries
  sorted cmp entries h := by
    rw [if_pos h]
    exact mergeEntries_sorted h

end Fallback

/-- Where the comparison function orders the entries, an entry that it puts behind
another one with a larger uid spoils the order of the uids. -/
theorem HashSort.not_inUidOrder (hash : HashSort) {childList : List NameList}
    (htotal : TotalOn fsHashSortByUid childList) {a b : NameList} (ha : a ∈ childList)
    (hb : b ∈ childList) (hlt : a.uid < b.uid) (hcmp : ¬fsHashSortByUid a b ≤ 0) :
    ¬InUidOrder (hash.sort fsHashSortByUid childList) := by
  intro horder
  have hperm := hash.perm fsHashSortByUid childList
  let rel : NameList → NameList → Prop := fun x y =>
    (x.uid < y.uid ∧ fsHashSortByUid x y ≤ 0) ∨ (y.uid < x.uid ∧ fsHashSortByUid y x ≤ 0)
  have : Std.Symm rel := ⟨fun _ _ => Or.symm⟩
  have hboth : (hash.sort fsHashSortByUid childList).Pairwise rel :=
    (List.Pairwise.and horder (hash.sorted _ _ htotal)).imp .inl
  have hne : a ≠ b := by
    rintro rfl
    exact lt_irrefl _ hlt
  rcases hboth.forall (hperm.mem_iff.2 ha) (hperm.mem_iff.2 hb) hne with hab | hba
  · exact hcmp hab.2
  · exact lt_asymm hlt hba.1

/-- Two uids that are not close are listed in the wrong order by some sort. -/
theorem exists_not_inUidOrder {childList : List NameList} {a b : NameList}
    (ha : a ∈ childList) (hb : b ∈ childList) (hlt : a.uid < b.uid)
    (hclose : ¬Close a.uid b.uid) :
    ∃ hash : HashSort, ¬InUidOrder (hash.sort fsHashSortByUid childList) := by
  have hne : a ≠ b := by
    rintro rfl
    exact lt_irrefl _ hlt
  refine ⟨.withFallback (fun entries => if b ∈ entries then b :: entries.erase b
    else entries) ?_, ?_⟩
  · intro entries
    split_ifs with hmem
    · exact (List.perm_cons_erase hmem).symm
    · exact .refl _
  by_cases htotal : TotalOn fsHashSortByUid childList
  · refine HashSort.not_inUidOrder _ htotal ha hb hlt fun hab => ?_
    -- both differences are taken for "not larger", which only equal entries may be
    have hba : fsHashSortByUid b a ≤ 0 := by
      by_contra hpos
      exact hclose ((close_iff hlt).2 ⟨hab, not_le.1 hpos⟩)
    exact hne (htotal.antisymm a ha b hb hab hba)
  · intro horder
    simp only [HashSort.withFallback, if_neg htotal, if_pos hb] at horder
    have hrest : a ∈ childList.erase b := (List.mem_erase_of_ne hne).2 ha
    exact lt_asymm hlt (List.rel_of_pairwise_cons horder hrest)

/-- The children are listed and written in strictly increasing uid order, whatever
sort is used, iff their uids are close. -/
theorem children_inUidOrder_iff {childList : List NameList}
    (hdistinct : (childList.map NameList.uid).Nodup) :
    (∀ hash : HashSort, InUidOrder (xmlWriteDirtree hash childList) ∧
      ∀ filler, InUidOrder (ltfsFsopsReaddir hash filler childList)) ↔
    ∀ a ∈ childList, ∀ b ∈ childList, a.uid < b.uid → Close a.uid b.uid := by
  constructor
  · intro h a ha b hb hlt
    by_contra hclose
    obtain ⟨hash, hnot⟩ := exists_not_inUidOrder ha hb hlt hclose
    exact hnot (h hash).1
  · intro h hash
    have horder := hash.inUidOrder hdistinct h
    exact ⟨horder, fun filler => horder.sublist (List.take_sublist ..)⟩

/-- A new child gets the uid after the largest one. -/
theorem children_inUidOrder_iff_small :
    (([⟨[97], 2, 0⟩, ⟨[98], 5, 1⟩] : List NameList).map NameList.uid).Nodup ∧
      ∀ hash : HashSort,
        InUidOrder (xmlWriteDirtree hash [⟨[97], 2, 0⟩, ⟨[98], 5, 1⟩]) := by
  have hdistinct :
      (([⟨[97], 2, 0⟩, ⟨[98], 5, 1⟩] : List NameList).map NameList.uid).Nodup := by
    decide +kernel
  refine ⟨hdistinct, fun hash => ((children_inUidOrder_iff hdistinct).2 ?_ hash).1⟩
  decide +kernel

/-- The uid 2³¹ + 2 is listed before the uid 1. -/
theorem children_wrong_order :
    fsHashSortByUid ⟨[98], 2 ^ 31 + 2, 1⟩ ⟨[97], 1, 0⟩ < 0 ∧
      ∀ hash : HashSort,
        ¬InUidOrder (xmlWriteDirtree hash [⟨[97], 1, 0⟩, ⟨[98], 2 ^ 31 + 2, 1⟩]) := by
  have htotal : TotalOn fsHashSortByUid [⟨[97], 1, 0⟩, ⟨[98], 2 ^ 31 + 2, 1⟩] :=
    ⟨by decide +kernel, by decide +kernel, by decide +kernel⟩
  refine ⟨by decide +kernel, fun hash => ?_⟩
  exact hash.not_inUidOrder htotal (a := ⟨[97], 1, 0⟩) (b := ⟨[98], 2 ^ 31 + 2, 1⟩)
    (by simp) (by simp) (by decide +kernel) (by decide +kernel)

end AuroraLtfs.Fs
