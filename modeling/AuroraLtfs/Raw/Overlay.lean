import AuroraLtfs.Lib.ByteFile
import AuroraLtfs.Raw.Resolve

/-!
# What the extent walks do to the bytes of a file

Read through the tape, an extent is a segment of bytes.  Laying an extent over
the list replaces exactly the bytes it covers, and truncation drops exactly the
bytes past the new length; both keep the list ordered and every extent within
the recorded blocks.
-/

namespace AuroraLtfs.Raw

open AuroraLtfs.Tape

variable {β : Type*} [Zero β]

/-- The byte `k` bytes behind the start of block `block`. -/
def tapeByte (bs : ℕ) (m : Medium (List β)) (p : Part) (block k : ℕ) : β :=
  match (m p)[block + k / bs]? with
  | some (.block data) => data.getD (k % bs) 0
  | _ => 0

/-- Byte `k` behind the start of block `block` is recorded below `limit`, in a
block no longer than the block size. -/
def Recorded (bs : ℕ) (m : Medium (List β)) (limit : Part → ℕ) (p : Part)
    (block k : ℕ) : Prop :=
  block + k / bs < limit p ∧ ∃ data, (m p)[block + k / bs]? =
    some (.block data) ∧ k % bs < data.length ∧ data.length ≤ bs

/-- Extents as segments of bytes. -/
def segments (bs : ℕ) (m : Medium (List β)) : Segments Extent β where
  lo e := e.fileoffset
  hi e := e.fileoffsetEnd
  get e i := tapeByte bs m e.partition e.block
    (e.byteoffset + (i - e.fileoffset))

/-- The byte at a place. -/
def Place.read (m : Medium (List β)) (x : Place) : β :=
  match (m x.partition)[x.block]? with
  | some (.block data) => data.getD x.byte 0
  | _ => 0

/-- The bytes of an extent list are those at the places it resolves to. -/
theorem segments_lookup (bs : ℕ) (m : Medium (List β)) (extents : List Extent)
    (i : ℕ) : (segments bs m).lookup extents i =
      ((places bs).lookup extents i).map (Place.read m) :=
  (places bs).lookup_map (Place.read m) rfl rfl (fun _ _ => rfl) extents i

/-- The extent invariant: a positive number of bytes, starting within a block,
ending a whole block short of the 64-bit range, and all of them recorded below
the append positions. -/
structure Extent.Good (bs : ℕ) (m : Medium (List β)) (limit : Part → ℕ)
    (e : Extent) : Prop where
  bytecount : 0 < e.bytecount
  byteoffset : e.byteoffset < bs
  fits : e.fileoffsetEnd + bs ≤ 2 ^ 64
  recorded : ∀ i, e.fileoffset ≤ i → i < e.fileoffsetEnd →
    Recorded bs m limit e.partition e.block (e.byteoffset + (i - e.fileoffset))

section Pieces

variable {bs : ℕ} {m : Medium (List β)} {limit : Part → ℕ}

omit [Zero β] in
theorem recorded_shift (hbs : 0 < bs) (p : Part) (block x y : ℕ) :
    Recorded bs m limit p (block + x / bs) (x % bs + y) ↔
      Recorded bs m limit p block (x + y) := by
  obtain ⟨hdiv, hmod⟩ := div_mod_shift hbs x y
  simp only [Recorded, hdiv, hmod, Nat.add_assoc]

omit [Zero β] in
theorem trimBegin_good (hbs : 0 < bs) {e : Extent} {start : ℕ}
    (hlo : e.fileoffset ≤ start) (hhi : start < e.fileoffsetEnd)
    (h : e.Good bs m limit) : (e.trimBegin bs start).Good bs m limit := by
  refine ⟨?_, Nat.mod_lt _ hbs, ?_, ?_⟩
  · simp only [Extent.trimBegin, Extent.fileoffsetEnd] at hhi ⊢
    omega
  · rw [trimBegin_fileoffsetEnd bs hlo hhi.le]
    exact h.fits
  · intro i hi hi'
    rw [trimBegin_fileoffset bs hlo] at hi
    rw [trimBegin_fileoffsetEnd bs hlo hhi.le] at hi'
    have hoffset : start - e.fileoffset + e.byteoffset +
        (i - (e.fileoffset + (start - e.fileoffset))) =
          e.byteoffset + (i - e.fileoffset) := by omega
    simp only [Extent.trimBegin]
    rw [recorded_shift hbs, hoffset]
    exact h.recorded i (hlo.trans hi) hi'

omit [Zero β] in
theorem trimEnd_good {e : Extent} {stop : ℕ} (hlo : e.fileoffset < stop)
    (hhi : stop ≤ e.fileoffsetEnd) (h : e.Good bs m limit) :
    (e.trimEnd stop).Good bs m limit := by
  refine ⟨?_, h.byteoffset, ?_, ?_⟩
  · simp only [Extent.trimEnd]
    omega
  · rw [trimEnd_fileoffsetEnd hlo.le]
    exact (Nat.add_le_add_right hhi bs).trans h.fits
  · intro i hi hi'
    rw [trimEnd_fileoffsetEnd hlo.le] at hi'
    exact h.recorded i hi (hi'.trans_le hhi)

omit [Zero β] in
theorem join_good (hbs : 0 < bs) {e ext : Extent}
    (hcontinued : e.continuedBy bs ext) (he : e.Good bs m limit)
    (hext : ext.Good bs m limit) : (e.join ext).Good bs m limit := by
  refine ⟨Nat.add_pos_left he.bytecount _, he.byteoffset, ?_, ?_⟩
  · rw [join_fileoffsetEnd hcontinued]
    exact hext.fits
  · intro i hi hi'
    rw [join_fileoffsetEnd hcontinued] at hi'
    by_cases hold : i < ext.fileoffset
    · have hoffset : ext.fileoffset = e.fileoffsetEnd := by
        simp only [Extent.continuedBy, decide_eq_true_eq] at hcontinued
        exact hcontinued.1
      exact he.recorded i hi (hoffset ▸ hold)
    · obtain ⟨hblock, hoffset, htotal⟩ := join_shift hcontinued (not_lt.1 hold)
      have hrecorded := hext.recorded i (not_lt.1 hold) hi'
      simp only [Extent.continuedBy, decide_eq_true_eq] at hcontinued
      rw [← hcontinued.2.1, hblock, hoffset, recorded_shift hbs, htotal] at hrecorded
      exact hrecorded

omit [Zero β] in
theorem stable_good (hbs : 0 < bs) :
    Stable bs fun e => e.Good bs m limit where
  trimBegin h hlo hhi := trimBegin_good hbs hlo hhi h
  trimEnd h hlo hhi := trimEnd_good hlo hhi h
  join h hext hcontinued := join_good hbs hcontinued h hext

/-! ## The walk -/

/-- The list that comes out of the walk holds `ext` where it lies and what was
there before everywhere else. -/
structure WalkSpec (bs : ℕ) (m : Medium (List β)) (limit : Part → ℕ)
    (ext : Extent) (before after : List Extent) : Prop where
  ordered : (segments bs m).Ordered after
  good : ∀ e ∈ after, e.Good bs m limit
  lookup : ∀ i, (segments bs m).lookup after i =
    if ext.fileoffset ≤ i ∧ i < ext.fileoffsetEnd
    then some ((segments bs m).get ext i)
    else (segments bs m).lookup before i

theorem addWalk_spec (hbs : 0 < bs) {ext : Extent}
    (hext : ext.Good bs m limit) (rev after : List Extent) (realsize : ℕ)
    (hordered : (segments bs m).Ordered (rev.reverse ++ after))
    (hgood : ∀ e ∈ rev.reverse ++ after, e.Good bs m limit)
    (hafter : ∀ e ∈ after, ext.fileoffsetEnd ≤ e.fileoffset) :
    WalkSpec bs m limit ext (rev.reverse ++ after)
      (addWalk bs ext rev after realsize).1 := by
  have hwalk := addWalk_overlays hbs ext rev after realsize hordered hafter
  have hstays := (stable_good hbs).addWalk hext rev after realsize
    (fun e he => hgood e (by simp [he])) (fun e he => hgood e (by simp [he]))
  refine ⟨hwalk.ordered, hstays, ?_⟩
  intro i
  have hlookup : (places bs).lookup (addWalk bs ext rev after realsize).1 i =
      if ext.fileoffset ≤ i ∧ i < ext.fileoffsetEnd then some (ext.place bs i)
      else (places bs).lookup (rev.reverse ++ after) i := hwalk.lookup i
  rw [segments_lookup, segments_lookup, hlookup]
  by_cases hi : ext.fileoffset ≤ i ∧ i < ext.fileoffsetEnd
  · rw [if_pos hi, if_pos hi]
    rfl
  · rw [if_neg hi, if_neg hi]

/-! ## Truncation -/

theorem truncateWalk_spec (length : ℕ) (rev : List Extent) (realsize : ℕ)
    (hordered : (segments bs m).Ordered rev.reverse)
    (hgood : ∀ e ∈ rev, e.Good bs m limit) :
    (segments bs m).Ordered (truncateWalk length rev realsize).1 ∧
      (∀ e ∈ (truncateWalk length rev realsize).1, e.Good bs m limit ∧
        e.fileoffsetEnd ≤ length) ∧
      ∀ i, (segments bs m).lookup (truncateWalk length rev realsize).1 i =
        if i < length then (segments bs m).lookup rev.reverse i else none := by
  obtain ⟨hkept, hends, hlookup⟩ := truncateWalk_cuts bs length rev realsize hordered
  have hstays := truncateWalk_forall (fun h hlo hhi => trimEnd_good hlo hhi h) length rev
    realsize hgood
  refine ⟨hkept, fun e he => ⟨hstays e he, hends e he⟩, ?_⟩
  intro i
  rw [segments_lookup, segments_lookup, hlookup]
  split_ifs <;> rfl

end Pieces

end AuroraLtfs.Raw
