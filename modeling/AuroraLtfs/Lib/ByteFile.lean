import Mathlib

/-!
# Byte files

The abstract file of a byte store: a length and the bytes below it.  A write
puts bytes at an offset, a truncation sets the length, and a byte that was
never written is zero.  A file over `Option` tells where that is.
-/

namespace AuroraLtfs

/-- A file of `size` bytes.  Bytes past the end read as zero, so that files
with the same bytes are equal. -/
@[ext]
structure ByteFile (β : Type*) [Zero β] where
  size : ℕ
  byte : ℕ → β
  byte_past : ∀ i, size ≤ i → byte i = 0

namespace ByteFile

variable {β : Type*} [Zero β] (f : ByteFile β)

/-- Put `bytes` at `offset`.  Writing nothing does not extend the file. -/
def write (f : ByteFile β) (offset : ℕ) (bytes : List β) : ByteFile β where
  size := if bytes = [] then f.size else max f.size (offset + bytes.length)
  byte i := if offset ≤ i ∧ i < offset + bytes.length
    then bytes.getD (i - offset) 0 else f.byte i
  byte_past := by
    intro i hi
    by_cases hbytes : bytes = []
    · subst hbytes
      simp only [if_true] at hi
      simp [f.byte_past i hi]
    · simp only [hbytes, if_false, max_le_iff] at hi
      rw [if_neg (by omega), f.byte_past i hi.1]

/-- Set the length: cut the file, or extend it by zeros. -/
def truncate (f : ByteFile β) (length : ℕ) : ByteFile β where
  size := length
  byte i := if i < length then f.byte i else 0
  byte_past := by
    intro i hi
    rw [if_neg (by omega)]

/-- The file extended by zeros to at least `k` bytes. -/
def pad (f : ByteFile β) (k : ℕ) : ByteFile β where
  size := max k f.size
  byte := f.byte
  byte_past := fun i hi => f.byte_past i ((le_max_right _ _).trans hi)

/-- The `n` bytes from `offset` on. -/
def slice (byte : ℕ → β) (offset n : ℕ) : List β :=
  (List.range n).map fun k => byte (offset + k)

/-- The bytes of `[offset, min (offset + count) size)`. -/
def read (f : ByteFile β) (offset count : ℕ) : List β :=
  slice f.byte offset (min (offset + count) f.size - offset)

@[simp]
theorem write_nil (offset : ℕ) : f.write offset [] = f := by
  apply ByteFile.ext
  · simp [write]
  · funext i
    simp only [write, List.length_nil, Nat.add_zero]
    rw [if_neg (by omega)]

@[simp]
theorem pad_zero : f.pad 0 = f := by
  apply ByteFile.ext
  · exact Nat.zero_max _
  · rfl

theorem pad_truncate (k length : ℕ) :
    (f.pad k).truncate length = f.truncate length := rfl

/-- Two writes in a row are one write. -/
theorem write_append (offset : ℕ) (xs ys : List β) :
    (f.write offset xs).write (offset + xs.length) ys =
      f.write offset (xs ++ ys) := by
  apply ByteFile.ext
  · simp only [write, List.append_eq_nil_iff, List.length_append]
    by_cases hxs : xs = []
    · simp [hxs]
    · by_cases hys : ys = []
      · simp [hxs, hys]
      · simp only [hxs, hys, and_self, if_false]
        omega
  · funext i
    simp only [write, List.length_append, List.getD_eq_getElem?_getD]
    by_cases hys : offset + xs.length ≤ i ∧ i < offset + xs.length + ys.length
    · rw [if_pos hys, if_pos (by omega), List.getElem?_append_right (by omega)]
      congr 2
      omega
    · rw [if_neg hys]
      by_cases hxs : offset ≤ i ∧ i < offset + xs.length
      · rw [if_pos hxs, if_pos (by omega), List.getElem?_append_left (by omega)]
      · rw [if_neg hxs, if_neg (by omega)]

section Slice

variable {byte byte' : ℕ → β} {offset n : ℕ}

omit [Zero β] in
@[simp]
theorem length_slice (byte : ℕ → β) (offset n : ℕ) : (slice byte offset n).length = n := by
  simp [slice]

omit [Zero β] in
theorem getElem?_slice (byte : ℕ → β) (offset : ℕ) {n k : ℕ} (hk : k < n) :
    (slice byte offset n)[k]? = some (byte (offset + k)) := by
  simp [slice, hk]

omit [Zero β] in
/-- Neighbouring slices make one. -/
theorem slice_add (byte : ℕ → β) (offset m n : ℕ) :
    slice byte offset (m + n) =
      slice byte offset m ++ slice byte (offset + m) n := by
  simp only [slice, List.range_add, List.map_append, List.map_map]
  congr 2
  funext k
  simp only [Function.comp_apply, Nat.add_assoc]

omit [Zero β] in
theorem slice_congr (hsame : ∀ i, offset ≤ i → i < offset + n → byte i = byte' i) :
    slice byte offset n = slice byte' offset n := by
  apply List.map_congr_left
  intro k hk
  rw [List.mem_range] at hk
  exact hsame (offset + k) (by omega) (by omega)

omit [Zero β] in
/-- A list is a slice when it has the length and the bytes. -/
theorem eq_slice {out : List β} (hlength : out.length = n)
    (hbytes : ∀ k, k < n → out[k]? = some (byte (offset + k))) :
    out = slice byte offset n := by
  apply List.ext_getElem?
  intro k
  by_cases hk : k < n
  · rw [hbytes k hk, getElem?_slice byte offset hk]
  · rw [List.getElem?_eq_none (by omega), List.getElem?_eq_none
      (by rw [length_slice]; omega)]

end Slice

@[simp]
theorem length_read (offset count : ℕ) :
    (f.read offset count).length = min (offset + count) f.size - offset :=
  length_slice _ _ _

/-- A list is what a read returns when it has the length and the bytes. -/
theorem eq_read {offset count : ℕ} {out : List β}
    (hlength : out.length = min (offset + count) f.size - offset)
    (hbytes : ∀ k, k < out.length → out[k]? = some (f.byte (offset + k))) :
    out = f.read offset count :=
  eq_slice hlength fun k hk => hbytes k (hlength ▸ hk)

/-- What a read has returned is what it returns after a write elsewhere. -/
theorem read_write_of_apart {offset start : ℕ} {bytes out : List β}
    (hout : out = f.read start out.length)
    (hapart : offset + bytes.length ≤ start ∨ start + out.length ≤ offset) :
    out = (f.write offset bytes).read start out.length := by
  have hlength := congrArg List.length hout
  rw [length_read] at hlength
  have hsize : f.size ≤ (f.write offset bytes).size := by
    simp only [write]
    split_ifs
    · exact le_rfl
    · exact le_max_left _ _
  apply eq_read
  · omega
  · intro k hk
    have hsame : (f.write offset bytes).byte (start + k) = f.byte (start + k) := by
      simp only [write]
      rw [if_neg (by omega)]
    rw [hsame, hout, read, getElem?_slice _ _ (by omega)]

/-- A read filled up with zeros has all the bytes asked for. -/
theorem read_append_zeros (offset count : ℕ) :
    f.read offset count ++ List.replicate
      (count - (f.read offset count).length) 0 = slice f.byte offset count := by
  have hlength := f.length_read offset count
  have hsplit : slice f.byte offset count = f.read offset count ++
      slice f.byte (offset + (f.read offset count).length)
        (count - (f.read offset count).length) := by
    rw [read, length_slice, ← slice_add]
    congr 1
    omega
  rw [hsplit]
  congr 1
  apply eq_slice (List.length_replicate ..)
  intro k hk
  rw [List.getElem?_replicate_of_lt hk, f.byte_past _ (by omega)]

end ByteFile

/-! ## Holes -/

instance zeroOption {β : Type*} : Zero (Option β) := ⟨none⟩

/-- A file that knows its holes. -/
abbrev SparseFile (β : Type*) := ByteFile (Option β)

namespace ByteFile

section Holes

variable {β : Type*} (f : SparseFile β) (offset : ℕ) (bytes : List β)

/-- Put `bytes` at `offset` of a file with holes. -/
def put : SparseFile β := f.write offset (bytes.map some)

theorem put_size : (f.put offset bytes).size =
    if bytes = [] then f.size else max f.size (offset + bytes.length) := by
  simp [put, write]

theorem put_byte (i : ℕ) : (f.put offset bytes).byte i =
    if offset ≤ i ∧ i < offset + bytes.length then bytes[i - offset]? else f.byte i := by
  simp only [put, write, List.length_map, List.getD_eq_getElem?_getD, List.getElem?_map]
  split_ifs with h
  · rw [List.getElem?_eq_getElem (by omega)]
    rfl
  · rfl

@[simp]
theorem put_nil : f.put offset [] = f := f.write_nil offset

theorem put_append (xs ys : List β) :
    (f.put offset xs).put (offset + xs.length) ys = f.put offset (xs ++ ys) := by
  have happend := f.write_append offset (xs.map some) (ys.map some)
  rwa [List.length_map, ← List.map_append] at happend

theorem pad_put (k : ℕ) : (f.pad k).put offset bytes = (f.put offset bytes).pad k := by
  apply ByteFile.ext
  · simp only [pad, put_size]
    split_ifs
    · rfl
    · exact max_assoc _ _ _
  · rfl

/-- A byte that has been written stays. -/
theorem isSome_put {i : ℕ} (h : (f.byte i).isSome ∨ offset ≤ i ∧ i < offset + bytes.length) :
    ((f.put offset bytes).byte i).isSome := by
  rw [put_byte]
  split_ifs with hin
  · rw [List.getElem?_eq_getElem (by omega)]
    rfl
  · exact h.resolve_right hin

variable [Zero β]

/-- The file with zeros in its holes. -/
def fill : ByteFile β where
  size := f.size
  byte i := (f.byte i).getD 0
  byte_past := by
    intro i hi
    rw [f.byte_past i hi]
    rfl

theorem fill_size : f.fill.size = f.size := rfl

theorem fill_byte (i : ℕ) : f.fill.byte i = (f.byte i).getD 0 := rfl

theorem fill_put : (f.put offset bytes).fill = f.fill.write offset bytes := by
  apply ByteFile.ext
  · exact f.put_size offset bytes
  · funext i
    simp only [fill, put_byte, write, List.getD_eq_getElem?_getD]
    split_ifs <;> rfl

theorem fill_truncate (length : ℕ) : (f.truncate length).fill = f.fill.truncate length := by
  refine ByteFile.ext rfl ?_
  funext i
  simp only [fill, truncate]
  split_ifs <;> rfl

end Holes

end ByteFile

end AuroraLtfs
