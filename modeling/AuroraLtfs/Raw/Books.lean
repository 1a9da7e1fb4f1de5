import AuroraLtfs.Lib.Runs
import AuroraLtfs.Raw.Refinement

/-!
# The invariant of an extent list

Extents in order, of at least one byte each, that start within their first block
and end within the file, and a `realsize` that counts their bytes.  Raw writes,
added extents and truncations keep the invariant, with the exception of an extent
of no bytes: `ltfs_fsraw_write` of an empty buffer writes nothing, and adds an
empty extent at block zero.
-/

namespace AuroraLtfs.Raw

open AuroraLtfs.Tape
open AuroraLtfs.Index

/-- The bytes of a list of extents. -/
def bytesOf (es : List Extent) : ℕ := (es.map Extent.bytecount).sum

@[simp]
theorem bytesOf_nil : bytesOf [] = 0 := rfl

@[simp]
theorem bytesOf_cons (e : Extent) (es : List Extent) :
    bytesOf (e :: es) = e.bytecount + bytesOf es := by
  simp [bytesOf]

@[simp]
theorem bytesOf_append (es fs : List Extent) :
    bytesOf (es ++ fs) = bytesOf es + bytesOf fs := by
  simp [bytesOf]

@[simp]
theorem bytesOf_reverse (es : List Extent) : bytesOf es.reverse = bytesOf es := by
  simp [bytesOf, List.map_reverse, List.sum_reverse]

/-- The extent list of a file, its `realsize` and its `size` fit together. -/
structure Dentry.WellFormed (bs : ℕ) (d : Dentry) : Prop where
  ordered : d.extents.Pairwise fun a b => a.fileoffsetEnd ≤ b.fileoffset
  positive : ∀ e ∈ d.extents, 0 < e.bytecount
  byteoffset : ∀ e ∈ d.extents, e.byteoffset < bs
  realsize : d.realsize = bytesOf d.extents
  size : ∀ e ∈ d.extents, e.fileoffsetEnd ≤ d.size

section Walk

variable {bs : ℕ} {ext entry : Extent}

/-! ## Adding an extent -/

/-- What is cut off an entry is what `realsize` loses. -/
theorem cutEntry_bytes (bs : ℕ) (ext entry : Extent) :
    bytesOf (remains (cutEntry bs ext entry)) + (cutEntry bs ext entry).2.2 =
      entry.bytecount := by
  rw [cutEntry]
  split_ifs with hover hcovered hinside htail <;>
    simp only [remains, Option.toList_none, Option.toList_some, List.nil_append,
      List.cons_append, bytesOf_cons, bytesOf_nil, Extent.trimBegin, Extent.trimEnd,
      Extent.fileoffsetEnd] at * <;> omega

/-- The real size the walk arrives at counts the bytes of its list. -/
theorem addWalk_bytes (rev after : List Extent) {realsize : ℕ}
    (hrealsize : realsize = bytesOf rev + bytesOf after) :
    (addWalk bs ext rev after realsize).2 =
      bytesOf (addWalk bs ext rev after realsize).1 := by
  induction rev generalizing after realsize with
  | nil =>
    simp only [addWalk, bytesOf_cons, hrealsize, bytesOf_nil]
    omega
  | cons entry prev ih =>
    have hcut := cutEntry_bytes bs ext entry
    rw [bytesOf_cons] at hrealsize
    rw [addWalk]
    generalize cutEntry bs ext entry = cut at hcut ⊢
    obtain ⟨left, behind, less⟩ := cut
    cases left with
    | none =>
      simp only [remains, Option.toList_none, List.nil_append] at hcut
      apply ih
      rw [bytesOf_append]
      omega
    | some e =>
      simp only [remains, Option.toList_some, List.cons_append, List.nil_append,
        bytesOf_cons] at hcut
      dsimp only
      split_ifs
      · simp only [bytesOf_append, bytesOf_cons, bytesOf_reverse]
        omega
      · simp only [bytesOf_append, bytesOf_cons, bytesOf_reverse]
        omega
      · apply ih
        simp only [List.cons_append, bytesOf_cons, bytesOf_append]
        omega

theorem stable_byteoffset (hbs : 0 < bs) : Stable bs fun e => e.byteoffset < bs where
  trimBegin _ _ _ := Nat.mod_lt _ hbs
  trimEnd h _ _ := h
  join h _ _ := h

theorem stable_fileoffsetEnd (bs stop : ℕ) :
    Stable bs fun e => e.fileoffsetEnd ≤ stop where
  trimBegin := by
    intro e start h hlo hhi
    rw [trimBegin_fileoffsetEnd bs hlo hhi.le]
    exact h
  trimEnd := by
    intro e stop' h hlo hhi
    rw [trimEnd_fileoffsetEnd hlo.le]
    exact hhi.trans h
  join := by
    intro e ext _ hext hcontinued
    rw [join_fileoffsetEnd hcontinued]
    exact hext

/-- The extent disappears in one of the entries, which it continues in the file and
on the tape. -/
def Absorbed (bs : ℕ) (ext : Extent) (es : List Extent) : Prop :=
  ∃ e ∈ es, e.fileoffset < ext.fileoffset ∧ ext.fileoffset ≤ e.fileoffsetEnd ∧
    (e.trimEnd ext.fileoffset).continuedBy bs ext

/-- An entry that is left over and continued by the extent was cut at most at its
end. -/
theorem cutEntry_continued {e : Extent} (hpositive : 0 < entry.bytecount)
    (hleft : (cutEntry bs ext entry).1 = some e) (hcontinued : e.continuedBy bs ext) :
    entry.fileoffset < ext.fileoffset ∧ ext.fileoffset ≤ entry.fileoffsetEnd ∧
      e = entry.trimEnd ext.fileoffset := by
  have hoffset := continuedBy_fileoffset hcontinued
  rw [cutEntry] at hleft
  split_ifs at hleft with hover hcovered hinside htail
  · cases hleft
    -- what lies behind the extent is not continued by it
    rw [trimBegin_fileoffsetEnd bs hover.2.le (not_le.1 hcovered).le] at hoffset
    simp only [Extent.fileoffsetEnd] at *
    omega
  · cases hleft
    exact ⟨hinside.1, hinside.2.le, rfl⟩
  · cases hleft
    exact ⟨hinside.1, hinside.2.le, rfl⟩
  · cases hleft
    refine ⟨?_, hoffset.le, ?_⟩
    · simp only [Extent.fileoffsetEnd] at hoffset
      omega
    · ext <;> simp only [Extent.trimEnd, Extent.fileoffsetEnd] at *
      omega

/-- The walk puts the extent into the list, unless an entry absorbs it. -/
theorem addWalk_mem (rev after : List Extent) (realsize : ℕ)
    (hpositive : ∀ e ∈ rev, 0 < e.bytecount) :
    ext ∈ (addWalk bs ext rev after realsize).1 ∨ Absorbed bs ext rev := by
  induction rev generalizing after realsize with
  | nil => exact .inl (by simp [addWalk])
  | cons entry prev ih =>
    have hentry : 0 < entry.bytecount := hpositive entry (by simp)
    have hprev : ∀ e ∈ prev, 0 < e.bytecount := fun e he => hpositive e (by simp [he])
    have hlater : Absorbed bs ext prev → Absorbed bs ext (entry :: prev) := by
      rintro ⟨e, he, h⟩
      exact ⟨e, by simp [he], h⟩
    have hcut := fun e => @cutEntry_continued bs ext entry e hentry
    rw [addWalk]
    generalize cutEntry bs ext entry = cut at hcut ⊢
    obtain ⟨left, behind, less⟩ := cut
    cases left with
    | none => exact (ih _ _ hprev).imp_right hlater
    | some e =>
      dsimp only
      split_ifs with hcontinued hend
      · obtain ⟨hlo, hhi, rfl⟩ := hcut e rfl hcontinued
        exact .inr ⟨entry, by simp, hlo, hhi, hcontinued⟩
      · exact .inl (by simp)
      · exact (ih _ _ hprev).imp_right hlater

/-- An empty extent that is absorbed leaves no empty entry behind. -/
theorem addWalk_absorbs (hext : ext.bytecount = 0) (rev after : List Extent)
    (realsize : ℕ) (hordered : (places bs).Ordered rev.reverse)
    (hpositive : ∀ e ∈ rev, 0 < e.bytecount) (hafter : ∀ e ∈ after, 0 < e.bytecount)
    (habsorbed : Absorbed bs ext rev) :
    ∀ e ∈ (addWalk bs ext rev after realsize).1, 0 < e.bytecount := by
  have hempty : ext.fileoffsetEnd = ext.fileoffset := by
    simp [Extent.fileoffsetEnd, hext]
  induction rev generalizing after realsize with
  | nil =>
    obtain ⟨e, he, -⟩ := habsorbed
    cases he
  | cons entry prev ih =>
    rw [List.reverse_cons] at hordered
    obtain ⟨hprevOrdered, -, hbetween⟩ := (Segments.ordered_append _).1 hordered
    have hentry : 0 < entry.bytecount := hpositive entry (by simp)
    have hspan : entry.fileoffset < entry.fileoffsetEnd := Nat.lt_add_of_pos_right hentry
    have hprev : ∀ e ∈ prev, 0 < e.bytecount := fun e he => hpositive e (by simp [he])
    obtain ⟨e, he, hlo, hhi, hcontinued⟩ := habsorbed
    by_cases hbehind : ext.fileoffset ≤ entry.fileoffset
    · -- the entry lies behind the extent, and the walk goes on
      have hcut : cutEntry bs ext entry = (some entry, [], 0) := by
        rw [cutEntry, if_neg (by omega), if_neg (by omega)]
      have hnot : ¬entry.continuedBy bs ext := by
        intro h
        have := continuedBy_fileoffset h
        omega
      have hmem : e ∈ prev := by
        cases List.mem_cons.1 he with
        | inl h => rw [h] at hlo; omega
        | inr h => exact h
      rw [addWalk, hcut]
      simp only [hnot, Bool.false_eq_true, if_false, if_neg (show
        ¬entry.fileoffsetEnd ≤ ext.fileoffset by omega)]
      apply ih _ _ hprevOrdered hprev _ ⟨e, hmem, hlo, hhi, hcontinued⟩
      intro x hx
      cases List.mem_cons.1 hx with
      | inl h => rw [h]; exact hentry
      | inr h => exact hafter x h
    · have heq : e = entry := by
        cases List.mem_cons.1 he with
        | inl h => exact h
        | inr h =>
          have hbelow : e.fileoffsetEnd ≤ entry.fileoffset :=
            hbetween e (by simpa using h) entry (by simp)
          omega
      subst heq
      have hleft := (stable_positive bs).cutEntry ext hentry
      have hcut : (cutEntry bs ext e).1 = some (e.trimEnd ext.fileoffset) := by
        rw [cutEntry, if_neg (by omega)]
        split_ifs with hinside htail
        · rfl
        · rfl
        · have hwhole : e.trimEnd ext.fileoffset = e := by
            ext <;> simp only [Extent.trimEnd, Extent.fileoffsetEnd] at *
            omega
          rw [hwhole]
      rw [addWalk]
      generalize cutEntry bs ext e = cut at hleft hcut ⊢
      obtain ⟨left, behind, less⟩ := cut
      cases hcut
      simp only [hcontinued, if_true, remains, Option.toList_some, List.cons_append,
        List.nil_append, List.mem_cons, forall_eq_or_imp] at hleft ⊢
      intro x hx
      simp only [List.append_assoc, List.mem_append, List.mem_reverse, List.cons_append,
        List.mem_cons] at hx
      rcases hx with hx | rfl | hx | hx
      · exact hprev x hx
      · exact Nat.add_pos_left hleft.1 _
      · exact hleft.2 x hx
      · exact hafter x hx

/-! ## Truncation -/

/-- `kept` are the bytes of the extents the walk has left behind it. -/
theorem truncateWalk_bytes (length : ℕ) (rev : List Extent) {realsize kept : ℕ}
    (hrealsize : realsize = bytesOf rev + kept) :
    (truncateWalk length rev realsize).2 =
      bytesOf (truncateWalk length rev realsize).1 + kept := by
  induction rev generalizing realsize kept with
  | nil => simpa [truncateWalk] using hrealsize
  | cons entry prev ih =>
    rw [bytesOf_cons] at hrealsize
    rw [truncateWalk]
    split_ifs with hpast hacross
    · apply ih
      omega
    · have htrimmed : realsize - (entry.fileoffsetEnd - length) =
          bytesOf prev + ((entry.trimEnd length).bytecount + kept) := by
        simp only [Extent.trimEnd, Extent.fileoffsetEnd] at *
        omega
      have hrest := ih htrimmed
      simp only [bytesOf_append, bytesOf_cons, bytesOf_nil]
      omega
    · simp only [bytesOf_reverse, bytesOf_cons]
      omega

/-! ## One operation -/

theorem Dentry.WellFormed.reverse_ordered {d : Dentry} (h : d.WellFormed bs) :
    (places bs).Ordered d.extents.reverse.reverse := by
  rw [List.reverse_reverse]
  exact h.ordered

theorem addExtent_wellFormed (hbs : 0 < bs) {d : Dentry} (h : d.WellFormed bs)
    (hbyteoffset : ext.byteoffset < bs)
    (hbytes : 0 < ext.bytecount ∨ Absorbed bs ext d.extents) :
    (addExtent bs ext d).WellFormed bs := by
  have hwalk := addWalk_overlays hbs ext d.extents.reverse [] d.realsize
    (by simpa using h.reverse_ordered) (by simp)
  constructor
  · exact hwalk.ordered
  · cases Nat.eq_zero_or_pos ext.bytecount with
    | inl hempty =>
      apply addWalk_absorbs hempty
      · exact h.reverse_ordered
      · simpa using h.positive
      · simp
      · obtain ⟨e, he, habsorbs⟩ := hbytes.resolve_left (by omega)
        exact ⟨e, by simpa using he, habsorbs⟩
    | inr hpositive =>
      exact (stable_positive bs).addWalk hpositive d.extents.reverse [] d.realsize
        (by simpa using h.positive) (by simp)
  · exact (stable_byteoffset hbs).addWalk hbyteoffset d.extents.reverse [] d.realsize
      (by simpa using h.byteoffset) (by simp)
  · exact addWalk_bytes d.extents.reverse [] (by simpa using h.realsize)
  · have hsize : d.size ≤ (addExtent bs ext d).size ∧
        ext.fileoffsetEnd ≤ (addExtent bs ext d).size := by
      simp only [addExtent]
      split_ifs <;> omega
    exact (stable_fileoffsetEnd bs _).addWalk hsize.2 d.extents.reverse [] d.realsize
      (fun e he => (h.size e (by simpa using he)).trans hsize.1) (by simp)

/-- Adding an extent keeps the invariant if and only if the extent starts within
its first block, and has bytes or is absorbed. -/
theorem addExtent_wellFormed_iff (hbs : 0 < bs) {d : Dentry} (h : d.WellFormed bs) :
    (addExtent bs ext d).WellFormed bs ↔
      ext.byteoffset < bs ∧ (0 < ext.bytecount ∨ Absorbed bs ext d.extents) := by
  constructor
  · intro hadded
    cases addWalk_mem d.extents.reverse [] d.realsize (by simpa using h.positive) with
    | inl hmem => exact ⟨hadded.byteoffset ext hmem, .inl (hadded.positive ext hmem)⟩
    | inr habsorbed =>
      obtain ⟨e, he, hlo, hhi, hcontinued⟩ := habsorbed
      refine ⟨?_, .inr ⟨e, by simpa using he, hlo, hhi, hcontinued⟩⟩
      simp only [Extent.continuedBy, decide_eq_true_eq] at hcontinued
      omega
  · rintro ⟨hbyteoffset, hbytes⟩
    exact addExtent_wellFormed hbs h hbyteoffset hbytes

theorem ltfsFsrawTruncate_wellFormed {d : Dentry} (h : d.WellFormed bs) (length : ℕ) :
    (ltfsFsrawTruncate length d).WellFormed bs := by
  unfold ltfsFsrawTruncate
  split_ifs with hshorter
  · obtain ⟨hordered, hends, -⟩ := truncateWalk_cuts bs length d.extents.reverse
      d.realsize h.reverse_ordered
    refine ⟨hordered, ?_, ?_, ?_, hends⟩
    · exact truncateWalk_forall (stable_positive bs).trimEnd length _ _
        (by simpa using h.positive)
    · exact truncateWalk_forall (fun h _ _ => h) length _ _ (by simpa using h.byteoffset)
    · have hrealsize : d.realsize = bytesOf d.extents.reverse + 0 := by
        simpa using h.realsize
      exact truncateWalk_bytes length d.extents.reverse hrealsize
  · refine ⟨h.ordered, h.positive, h.byteoffset, h.realsize, ?_⟩
    intro e he
    exact (h.size e he).trans (not_lt.1 hshorter)

end Walk

/-! ## Runs -/

variable {σ β : Type*}

/-- What `ltfs_fsraw_add_extent` is refused by on one partition: lack of space is no
reason, as the blocks are on the tape already. -/
def partitionRefusal (p : Part) (d : Device (List β)) : Option TapeError :=
  match tapeReadOnly p d with
  | .error e => if e = .noSpace ∨ e = .lessSpace then none else some e
  | .ok () => none

/-- The checks of `ltfs_fsraw_add_extent`. -/
def addExtentRefusal (d : Device (List β)) : Option TapeError :=
  (partitionRefusal .ip d).or (partitionRefusal .dp d)

/-- What changes the extents of a file. -/
inductive ExtentOp (β : Type*) where
  | write (p : Part) (offset : ℕ) (bytes : List β)
  | addExtent (ext : Extent)
  | truncate (length : ℕ)

namespace ExtentOp

/-- Carry out an operation on the file, whether it succeeds or not. -/
def exec (C : Catalog σ (List β)) (bs : ℕ) (op : ExtentOp β)
    (s : RawVol σ β × Dentry) : RawVol σ β × Dentry :=
  match op with
  | .write p offset bytes => (ltfsFsrawWrite C bs p offset bytes s).2
  | .addExtent ext =>
    match addExtentRefusal s.1.vol.device with
    | some _ => s
    | none => (s.1, Raw.addExtent bs ext s.2)
  | .truncate length => (s.1, ltfsFsrawTruncate length s.2)

def run (C : Catalog σ (List β)) (bs : ℕ) (ops : List (ExtentOp β))
    (s : RawVol σ β × Dentry) : RawVol σ β × Dentry :=
  ops.foldl (fun s op => op.exec C bs s) s

/-- The operation adds no extent that breaks the invariant: a write has something
to write, and an extent that is added starts within its first block and has bytes,
or is absorbed by the entry it continues. -/
def Admissible (bs : ℕ) (s : RawVol σ β × Dentry) : ExtentOp β → Prop
  | .write _ _ bytes => bytes ≠ []
  | .addExtent ext => addExtentRefusal s.1.vol.device = none →
      ext.byteoffset < bs ∧ (0 < ext.bytecount ∨ Absorbed bs ext s.2.extents)
  | .truncate _ => True

variable {bs : ℕ} (C : Catalog σ (List β))

/-- A raw write of nothing succeeds, and adds an empty extent at block zero. -/
theorem exec_write_nil (p : Part) (offset : ℕ) (s : RawVol σ β × Dentry) :
    ((write p offset []).exec C bs s).2 =
      Raw.addExtent bs ⟨p, 0, 0, 0, offset⟩ s.2 := by
  simp [exec, ltfsFsrawWrite, ltfsFsrawWriteData, writtenExtent]

/-- No entry absorbs an empty extent at block zero. -/
theorem not_absorbed_zero (p : Part) (offset : ℕ) (es : List Extent) :
    ¬Absorbed bs ⟨p, 0, 0, 0, offset⟩ es := by
  rintro ⟨e, -, hlo, -, hcontinued⟩
  simp only [Extent.continuedBy, Extent.trimEnd, decide_eq_true_eq] at hcontinued hlo
  obtain ⟨-, -, hmod, hblock, -⟩ := hcontinued
  have hdiv := (Nat.add_eq_zero_iff.1 hblock).2
  have := Nat.div_add_mod (e.byteoffset + (offset - e.fileoffset)) bs
  rw [hmod, hdiv] at this
  omega

/-- One operation keeps the invariant if and only if it is admissible. -/
theorem exec_wellFormed_iff (hbs : 0 < bs) (op : ExtentOp β)
    {s : RawVol σ β × Dentry} (h : s.2.WellFormed bs) :
    (op.exec C bs s).2.WellFormed bs ↔ op.Admissible bs s := by
  cases op with
  | write p offset bytes =>
    cases bytes with
    | nil =>
      rw [exec_write_nil, addExtent_wellFormed_iff hbs h]
      simp [Admissible, not_absorbed_zero, hbs]
    | cons b bytes =>
      apply iff_of_true _ (List.cons_ne_nil b bytes)
      simp only [exec, ltfsFsrawWrite]
      obtain ⟨_ | start, v⟩ := ltfsFsrawWriteData C bs p (b :: bytes) 1 s.1.vol
      · exact h
      · exact addExtent_wellFormed hbs h hbs (.inl (Nat.succ_pos _))
  | addExtent ext =>
    simp only [exec, Admissible]
    cases addExtentRefusal s.1.vol.device with
    | some e => simpa using h
    | none => simpa using addExtent_wellFormed_iff hbs h
  | truncate length =>
    exact iff_of_true (ltfsFsrawTruncate_wellFormed h length) trivial

end ExtentOp

/-- A new file, whatever its size has been set to. -/
def Dentry.empty (size : ℕ) : Dentry := ⟨size, 0, []⟩

theorem Dentry.empty_wellFormed (bs size : ℕ) : (Dentry.empty size).WellFormed bs :=
  ⟨.nil, by simp [empty], by simp [empty], rfl, by simp [empty]⟩

/-- From any state that meets the invariant: it holds after every operation if and
only if every operation is admissible where it is made. -/
theorem run_wellFormed_iff {bs : ℕ} (hbs : 0 < bs) (C : Catalog σ (List β))
    (ops : List (ExtentOp β)) {s : RawVol σ β × Dentry} (h : s.2.WellFormed bs) :
    (∀ n, (ExtentOp.run C bs (ops.take n) s).2.WellFormed bs) ↔
      ∀ before op after, ops = before ++ op :: after →
        op.Admissible bs (ExtentOp.run C bs before s) :=
  @runSteps_invariant_iff _ _ (fun op => op.exec C bs) (fun s => s.2.WellFormed bs)
    (fun s op => op.Admissible bs s) (fun op _ => ExtentOp.exec_wellFormed_iff C hbs op)
    ops s h

/-- The extent list of a new file, after every sequence of raw writes, added
extents and truncations: it meets the invariant throughout if and only if every
operation is admissible. -/
theorem extentList_wellFormed_iff {bs : ℕ} (hbs : 0 < bs) (C : Catalog σ (List β))
    (v : RawVol σ β) (size : ℕ) (ops : List (ExtentOp β)) :
    (∀ n, (ExtentOp.run C bs (ops.take n) (v, Dentry.empty size)).2.WellFormed bs) ↔
      ∀ before op after, ops = before ++ op :: after →
        op.Admissible bs (ExtentOp.run C bs before (v, Dentry.empty size)) :=
  run_wellFormed_iff hbs C ops (Dentry.empty_wellFormed bs size)

/-- Six bytes in blocks of four, two of them replaced, and the last three cut off. -/
theorem extentList_wellFormed_iff_cut :
    0 < 4 ∧ ∀ n, (ExtentOp.run emptyCatalog 4
      ([.write .dp 0 [1, 2, 3, 4, 5, 6], .addExtent ⟨.dp, 9, 1, 2, 2⟩, .truncate 3].take n)
      ((emptyFile ℕ).1, Dentry.empty 0)).2.WellFormed 4 := by
  refine ⟨by decide, ?_⟩
  apply (extentList_wellFormed_iff (by decide) emptyCatalog (emptyFile ℕ).1 0 _).2
  intro before op after heq
  match before, heq with
  | [], heq =>
    obtain ⟨rfl, -⟩ := List.cons.inj heq
    exact List.cons_ne_nil _ _
  | [_], heq =>
    obtain ⟨-, htail⟩ := List.cons.inj heq
    obtain ⟨rfl, -⟩ := List.cons.inj htail
    exact fun _ => ⟨by decide, .inl (by decide)⟩
  | [_, _], heq =>
    obtain ⟨-, htail⟩ := List.cons.inj heq
    obtain ⟨-, htail⟩ := List.cons.inj htail
    obtain ⟨rfl, -⟩ := List.cons.inj htail
    exact trivial
  | _ :: _ :: _ :: before, heq => simp at heq

/-- A raw write of nothing into the middle of an extent splits it, and puts an empty
extent between the parts. -/
theorem extentList_empty_extent :
    (ExtentOp.run emptyCatalog 4 [.write .dp 0 [1, 2, 3, 4], .write .dp 2 []]
        ((emptyFile ℕ).1, Dentry.empty 0)).2.extents =
      [⟨.dp, 0, 0, 2, 0⟩, ⟨.dp, 0, 0, 0, 2⟩, ⟨.dp, 0, 2, 2, 2⟩] ∧
    ¬(ExtentOp.run emptyCatalog 4 [.write .dp 0 [1, 2, 3, 4], .write .dp 2 []]
        ((emptyFile ℕ).1, Dentry.empty 0)).2.WellFormed 4 := by
  have hextents : (ExtentOp.run emptyCatalog 4 [.write .dp 0 [1, 2, 3, 4], .write .dp 2 []]
      ((emptyFile ℕ).1, Dentry.empty 0)).2.extents =
      [⟨.dp, 0, 0, 2, 0⟩, ⟨.dp, 0, 0, 0, 2⟩, ⟨.dp, 0, 2, 2, 2⟩] := by
    decide +kernel
  refine ⟨hextents, ?_⟩
  intro h
  have hpositive := h.positive ⟨.dp, 0, 0, 0, 2⟩ (by rw [hextents]; simp)
  exact absurd hpositive (by decide)

end AuroraLtfs.Raw
