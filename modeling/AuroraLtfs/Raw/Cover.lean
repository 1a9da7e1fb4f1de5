import AuroraLtfs.Raw.Overlay

/-!
# The offsets that extents cover

Which file offsets an extent list covers, whatever the blocks hold: laying an
extent over the list loses none of them.
-/

namespace AuroraLtfs.Raw

/-- The file offset lies in the extent. -/
def Extent.Covers (e : Extent) (x : ℕ) : Prop :=
  e.fileoffset ≤ x ∧ x < e.fileoffsetEnd

/-- Some extent of the list covers the offset. -/
def Covered (extents : List Extent) (x : ℕ) : Prop :=
  ∃ e ∈ extents, e.Covers x

instance (e : Extent) (x : ℕ) : Decidable (e.Covers x) :=
  inferInstanceAs (Decidable (_ ∧ _))

instance (extents : List Extent) (x : ℕ) : Decidable (Covered extents x) :=
  inferInstanceAs (Decidable (∃ e ∈ extents, e.Covers x))

section Lists

variable {x : ℕ} {e : Extent} {xs ys : List Extent}

theorem covered_append : Covered (xs ++ ys) x ↔ Covered xs x ∨ Covered ys x := by
  simp only [Covered, List.mem_append, or_and_right, exists_or]

theorem covered_cons : Covered (e :: xs) x ↔ e.Covers x ∨ Covered xs x := by
  simp only [Covered, List.mem_cons, or_and_right, exists_or, exists_eq_left]

theorem covered_reverse : Covered xs.reverse x ↔ Covered xs x := by
  simp only [Covered, List.mem_reverse]

end Lists

section Add

variable {bs x : ℕ} {ext entry : Extent}

/-- What is cut out of an entry lies in `ext`. -/
theorem cutEntry_covers (h : entry.Covers x) :
    ext.Covers x ∨ Covered (remains (cutEntry bs ext entry)) x := by
  obtain ⟨hlo, hhi⟩ := h
  have hend : entry.fileoffsetEnd = entry.fileoffset + entry.bytecount := rfl
  by_cases hin : ext.Covers x
  · exact .inl hin
  right
  rw [Extent.Covers, not_and_or, not_le, not_lt] at hin
  have hbegin : ext.fileoffsetEnd ≤ x → entry.fileoffset ≤ ext.fileoffsetEnd →
      (entry.trimBegin bs ext.fileoffsetEnd).Covers x := by
    intro hbehind hle
    simp only [Extent.Covers, Extent.trimBegin, Extent.fileoffsetEnd] at hbehind hle hhi ⊢
    omega
  have htail : x < ext.fileoffset → (entry.trimEnd ext.fileoffset).Covers x := by
    intro hbefore
    simp only [Extent.Covers, Extent.trimEnd, Extent.fileoffsetEnd]
    omega
  rw [cutEntry]
  split_ifs with hover hwhole hunder hback
  · omega
  · rcases hin with hbefore | hbehind
    · omega
    · exact ⟨_, by simp [remains], hbegin hbehind hover.2.le⟩
  · rcases hin with hbefore | hbehind
    · exact ⟨_, by simp [remains], htail hbefore⟩
    · omega
  · rcases hin with hbefore | hbehind
    · exact ⟨_, by simp [remains], htail hbefore⟩
    · have hle : ext.fileoffset ≤ ext.fileoffsetEnd := Nat.le_add_right _ _
      exact ⟨_, by simp [remains], hbegin hbehind (by omega)⟩
  · exact ⟨entry, by simp [remains], hlo, hhi⟩

/-- The walk loses no offset. -/
theorem addWalk_covers (rev after : List Extent) (realsize : ℕ)
    (h : ext.Covers x ∨ Covered rev x ∨ Covered after x) :
    Covered (addWalk bs ext rev after realsize).1 x := by
  induction rev generalizing after realsize with
  | nil =>
    rw [addWalk, covered_cons]
    rcases h with h | ⟨e, he, -⟩ | h
    · exact .inl h
    · simp at he
    · exact .inr h
  | cons entry prev ih =>
    have hcut : entry.Covers x →
        ext.Covers x ∨ Covered (remains (cutEntry bs ext entry)) x :=
      cutEntry_covers
    rw [covered_cons] at h
    rw [addWalk]
    generalize cutEntry bs ext entry = cut at hcut ⊢
    obtain ⟨_ | kept, behind, less⟩ := cut
    · apply ih
      simp only [remains, Option.toList_none, List.nil_append] at hcut
      rw [covered_append]
      tauto
    simp only [remains, Option.toList_some, List.singleton_append, covered_cons] at hcut
    dsimp only
    split_ifs with hjoin hstop
    · have hoffset : ext.fileoffset = kept.fileoffsetEnd := by
        simp only [Extent.continuedBy, decide_eq_true_eq] at hjoin
        exact hjoin.1
      have hjoined : kept.Covers x ∨ ext.Covers x →
          Extent.Covers { kept with
            bytecount := kept.bytecount + ext.bytecount } x := by
        simp only [Extent.Covers, Extent.fileoffsetEnd] at hoffset ⊢
        omega
      simp only [covered_append, covered_reverse, covered_cons]
      tauto
    · simp only [covered_append, covered_reverse, covered_cons]
      tauto
    · apply ih
      rw [List.cons_append, covered_cons, covered_append]
      tauto

/-- Laying an extent over the list of a file loses no offset. -/
theorem addExtent_covers {d : Dentry}
    (h : ext.Covers x ∨ Covered d.extents x) : Covered (addExtent bs ext d).extents x := by
  apply addWalk_covers
  rw [covered_reverse]
  tauto

end Add

end AuroraLtfs.Raw
