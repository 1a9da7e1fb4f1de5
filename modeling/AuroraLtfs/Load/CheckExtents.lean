import AuroraLtfs.Raw.Resolve

/-!
# The check of the extents of an index

`_ltfs_check_extents` walks a tree that was parsed from an index and compares the blocks
of every extent with the end of data of its partition.  The block it compares is computed
in 64 bits from the byte count alone, and only for the two partitions of the label.
-/

namespace AuroraLtfs.Load

open AuroraLtfs.Tape AuroraLtfs.Raw

/-- `struct extent_info` as the parser fills it -/
structure ExtentInfo where
  partition : Char
  block : UInt64
  byteoffset : UInt32
  bytecount : UInt64
  deriving DecidableEq

/-- A dentry of a parsed tree: a file has extents, a directory has children. -/
inductive ParsedDentry where
  | file (extentlist : List ExtentInfo)
  | dir (childList : List ParsedDentry)

/-- The fields of the label that the check uses -/
structure ExtentLabel where
  blocksize : UInt64
  partidIp : Char
  partidDp : Char
  blocksize_pos : 0 < blocksize

variable (l : ExtentLabel) (ipEod dpEod : UInt64)

/-- The block behind the last one, as the check computes it. -/
def extLastblock (e : ExtentInfo) : UInt64 :=
  let lastblock := e.block + e.bytecount / l.blocksize
  lastblock + if 0 < e.bytecount % l.blocksize then 1 else 0

/-- The body of the loop over the extents of a file. -/
def checkExtent (e : ExtentInfo) : Bool :=
  if e.block < 4 then false
  else if (e.partition = l.partidIp ∧ ipEod ≤ extLastblock l e) ∨
      (e.partition = l.partidDp ∧ dpEod ≤ extLastblock l e) then false
  else true

mutual

/-- `_ltfs_check_extents`; true is a return of 0. -/
def ltfsCheckExtents : ParsedDentry → Bool
  | .file extentlist => extentlist.all (checkExtent l ipEod dpEod)
  | .dir childList => ltfsCheckChildren childList

def ltfsCheckChildren : List ParsedDentry → Bool
  | [] => true
  | d :: childList => ltfsCheckExtents d && ltfsCheckChildren childList

end

mutual

/-- All extents of a tree. -/
def ParsedDentry.extents : ParsedDentry → List ExtentInfo
  | .file extentlist => extentlist
  | .dir childList => childrenExtents childList

def childrenExtents : List ParsedDentry → List ExtentInfo
  | [] => []
  | d :: childList => d.extents ++ childrenExtents childList

end

/-- The partition of this volume that a letter stands for. -/
def partOf (letter : Char) : Option Part :=
  if letter = l.partidIp then some .ip
  else if letter = l.partidDp then some .dp
  else none

def eodOf (p : Part) : ℕ :=
  match p with
  | .ip => ipEod.toNat
  | .dp => dpEod.toNat

/-- Where the bytes of an extent lie, with sums of natural numbers. -/
def ExtentInfo.place (e : ExtentInfo) (k : ℕ) : Option Place :=
  (partOf l e.partition).map fun p =>
    placeAt l.blocksize.toNat p e.block.toNat (e.byteoffset.toNat + k)

/-- Every byte of the extent lies between the label and the end of data of a partition
of this volume. -/
def ExtentInfo.Readable (e : ExtentInfo) : Prop :=
  ∀ k < e.bytecount.toNat, ∃ place, e.place l k = some place ∧
    4 ≤ place.block ∧ place.block < eodOf ipEod dpEod place.partition

/-- What the check does not look at. -/
structure ExtentInfo.Plain (e : ExtentInfo) (p : Part) : Prop where
  part : partOf l e.partition = some p
  sum : e.block.toNat + (e.bytecount.toNat + l.blocksize.toNat - 1) / l.blocksize.toNat < 2 ^ 64
  offset : e.byteoffset.toNat ≤ l.blocksize.toNat ∨
    e.block.toNat + (e.byteoffset.toNat + e.bytecount.toNat - 1) / l.blocksize.toNat <
      eodOf ipEod dpEod p

mutual

theorem ltfsCheckExtents_iff : ∀ d : ParsedDentry, ltfsCheckExtents l ipEod dpEod d = true ↔
    ∀ e ∈ d.extents, checkExtent l ipEod dpEod e = true
  | .file extentlist => by simp [ltfsCheckExtents, ParsedDentry.extents]
  | .dir childList => by
      rw [ltfsCheckExtents, ParsedDentry.extents, ltfsCheckChildren_iff childList]

theorem ltfsCheckChildren_iff : ∀ childList : List ParsedDentry,
    ltfsCheckChildren l ipEod dpEod childList = true ↔
      ∀ e ∈ childrenExtents childList, checkExtent l ipEod dpEod e = true
  | [] => by simp [ltfsCheckChildren, childrenExtents]
  | d :: childList => by
      simp only [ltfsCheckChildren, childrenExtents, Bool.and_eq_true, List.mem_append,
        ltfsCheckExtents_iff d, ltfsCheckChildren_iff childList, or_imp, forall_and]

end

/-! ## One extent -/

/-- The blocks of `count` bytes, rounded up. -/
theorem div_add_ite {size : ℕ} (hsize : 0 < size) (count : ℕ) :
    count / size + (if 0 < count % size then 1 else 0) = (count + size - 1) / size := by
  have hcount := Nat.div_add_mod count size
  have hlt := Nat.mod_lt count hsize
  symm
  split_ifs with hrest
  · rw [Nat.div_eq_iff hsize]
    generalize count / size = q at *
    generalize count % size = r at *
    subst hcount
    rw [Nat.add_mul, Nat.mul_comm size q]
    omega
  · rw [Nat.div_eq_iff hsize]
    generalize count / size = q at *
    generalize count % size = r at *
    subst hcount
    rw [Nat.add_zero, Nat.mul_comm size q]
    omega

theorem ExtentLabel.toNat_pos (l : ExtentLabel) : 0 < l.blocksize.toNat :=
  UInt64.lt_iff_toNat_lt.mp l.blocksize_pos

theorem extLastblock_toNat (e : ExtentInfo) :
    (extLastblock l e).toNat = (e.block.toNat +
      (e.bytecount.toNat + l.blocksize.toNat - 1) / l.blocksize.toNat) % 2 ^ 64 := by
  have hrest : 0 < e.bytecount % l.blocksize ↔
      0 < e.bytecount.toNat % l.blocksize.toNat := by
    rw [UInt64.lt_iff_toNat_lt, UInt64.toNat_mod]
    rfl
  rw [← div_add_ite l.toNat_pos, extLastblock]
  simp only [hrest]
  split_ifs
  · rw [UInt64.toNat_add, UInt64.toNat_add, UInt64.toNat_div, Nat.mod_add_mod,
      Nat.add_assoc]
    rfl
  · rw [UInt64.toNat_add, UInt64.toNat_add, UInt64.toNat_div, Nat.mod_add_mod,
      Nat.add_assoc]
    rfl

/-- What the check of an extent amounts to. -/
theorem checkExtent_iff (e : ExtentInfo) :
    checkExtent l ipEod dpEod e = true ↔
      4 ≤ e.block.toNat ∧
        (e.partition = l.partidIp → (extLastblock l e).toNat < ipEod.toNat) ∧
        (e.partition = l.partidDp → (extLastblock l e).toNat < dpEod.toNat) := by
  have hfour : e.block < 4 ↔ e.block.toNat < 4 := UInt64.lt_iff_toNat_lt
  unfold checkExtent
  simp only [hfour, UInt64.le_iff_toNat_le, ← not_lt]
  split_ifs with hstart hend
  · simp [hstart]
  · refine iff_of_false (by simp) fun ⟨_, hip, hdp⟩ => ?_
    rcases hend with ⟨hp, heod⟩ | ⟨hp, heod⟩
    · exact heod (hip hp)
    · exact heod (hdp hp)
  · refine iff_of_true rfl ⟨hstart, fun hp => ?_, fun hp => ?_⟩
    · exact not_not.mp fun heod => hend (.inl ⟨hp, heod⟩)
    · exact not_not.mp fun heod => hend (.inr ⟨hp, heod⟩)

/-- A known partition is checked against its own end of data. -/
theorem checkExtent_eod {e : ExtentInfo} (h : checkExtent l ipEod dpEod e = true) {p : Part}
    (hp : partOf l e.partition = some p) :
    (extLastblock l e).toNat < eodOf ipEod dpEod p := by
  obtain ⟨-, hip, hdp⟩ := (checkExtent_iff l ipEod dpEod e).mp h
  unfold partOf at hp
  split_ifs at hp with hisIp hisDp
  · obtain rfl := Option.some.inj hp
    exact hip hisIp
  · obtain rfl := Option.some.inj hp
    exact hdp hisDp

theorem eodOf_lt (p : Part) : eodOf ipEod dpEod p < 2 ^ 64 := by
  cases p
  · exact ipEod.toNat_lt
  · exact dpEod.toNat_lt

/-- An accepted extent is readable exactly if what the check does not look at is in
order. -/
theorem readable_iff {e : ExtentInfo} (h : checkExtent l ipEod dpEod e = true) :
    e.Readable l ipEod dpEod ↔ (0 < e.bytecount.toNat → ∃ p, e.Plain l ipEod dpEod p) := by
  have hstart := ((checkExtent_iff l ipEod dpEod e).mp h).1
  have hsize := l.toNat_pos
  constructor
  · intro hread hpos
    obtain ⟨place, hplace, -, hlt⟩ := hread (e.bytecount.toNat - 1) (by omega)
    obtain ⟨p, hp, rfl⟩ := Option.map_eq_some_iff.mp hplace
    simp only [placeAt] at hlt
    rw [← Nat.add_sub_assoc (by omega)] at hlt
    refine ⟨p, hp, ?_, .inr hlt⟩
    -- the last block is at least the one before the sum of the check
    have hlast : (e.bytecount.toNat - 1) / l.blocksize.toNat ≤
        (e.byteoffset.toNat + e.bytecount.toNat - 1) / l.blocksize.toNat :=
      Nat.div_le_div_right (by omega)
    have hceil : (e.bytecount.toNat + l.blocksize.toNat - 1) / l.blocksize.toNat =
        (e.bytecount.toNat - 1) / l.blocksize.toNat + 1 := by
      rw [← Nat.add_div_right _ hsize, Nat.sub_add_comm hpos]
    have heod := eodOf_lt ipEod dpEod p
    omega
  · intro hplain k hk
    obtain ⟨p, hp, hsum, hoffset⟩ := hplain (by omega)
    refine ⟨_, by rw [ExtentInfo.place, hp]; rfl, ?_, ?_⟩
    · exact hstart.trans (Nat.le_add_right _ _)
    · have heod := checkExtent_eod l ipEod dpEod h hp
      rw [extLastblock_toNat, Nat.mod_eq_of_lt hsum] at heod
      simp only [placeAt]
      rcases hoffset with hoffset | hlast
      · have hle : (e.byteoffset.toNat + k) / l.blocksize.toNat ≤
            (e.bytecount.toNat + l.blocksize.toNat - 1) / l.blocksize.toNat :=
          Nat.div_le_div_right (by omega)
        omega
      · have hle : (e.byteoffset.toNat + k) / l.blocksize.toNat ≤
            (e.byteoffset.toNat + e.bytecount.toNat - 1) / l.blocksize.toNat :=
          Nat.div_le_div_right (by omega)
        omega

/-- For a tree that passes the check every block that reading touches lies between the
label and the end of data, exactly if every extent with bytes names a partition of the
volume, its blocks do not wrap around 64 bits, and its byte offset is within a block or
its last byte below the end of data all the same. -/
theorem checkedExtents_readable_iff {d : ParsedDentry}
    (h : ltfsCheckExtents l ipEod dpEod d = true) :
    (∀ e ∈ d.extents, e.Readable l ipEod dpEod) ↔
      ∀ e ∈ d.extents, 0 < e.bytecount.toNat → ∃ p, e.Plain l ipEod dpEod p :=
  forall₂_congr fun e he =>
    readable_iff l ipEod dpEod ((ltfsCheckExtents_iff l ipEod dpEod d).mp h e he)

/-- A volume with blocks of 4096 bytes and partitions a and b -/
def sampleLabel : ExtentLabel := ⟨4096, 'a', 'b', by decide⟩

theorem checkedExtents_readable_iff_sample :
    (∀ e ∈ (ParsedDentry.dir [.file [⟨'b', 4, 0, 8192⟩]]).extents,
      e.Readable sampleLabel 10 10) ↔
      ∀ e ∈ (ParsedDentry.dir [.file [⟨'b', 4, 0, 8192⟩]]).extents,
        0 < e.bytecount.toNat → ∃ p, e.Plain sampleLabel 10 10 p :=
  checkedExtents_readable_iff sampleLabel 10 10 (by decide)

/-- An extent that starts on the last block, of two blocks, passes the check, as the
block behind it is block 1 in 64 bits. -/
theorem checkedExtents_wrap :
    ltfsCheckExtents sampleLabel 10 10
        (.dir [.file [⟨'b', 18446744073709551615, 0, 8192⟩]]) = true ∧
      ¬(⟨'b', 18446744073709551615, 0, 8192⟩ : ExtentInfo).Readable sampleLabel 10 10 := by
  refine ⟨by decide, fun hread => ?_⟩
  obtain ⟨place, hplace, -, hlt⟩ := hread 0 (by decide)
  obtain rfl : _ = place := Option.some.inj hplace
  simp [placeAt, eodOf] at hlt

end AuroraLtfs.Load
