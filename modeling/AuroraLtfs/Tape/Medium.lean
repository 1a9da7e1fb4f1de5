import Mathlib

/-!
# The recorded medium

A volume has two partitions, each a sequence of records.  A record is a file
mark or a data block.  A write at a position discards whatever the partition
held from there on, so a medium only changes by cutting one partition and
appending records to it.
-/

namespace AuroraLtfs.Tape

/-- The index partition and the data partition of a volume. -/
inductive Part where
  | ip
  | dp
  deriving DecidableEq, Repr

inductive Record (π : Type*) where
  | filemark
  | block (payload : π)
  deriving DecidableEq, Repr

abbrev Medium (π : Type*) := Part → List (Record π)

variable {π : Type*}

def Record.isMark : Record π → Bool
  | filemark => true
  | block _ => false

namespace Medium

/-- Drop every record of partition `p` from position `pos` on. -/
def cut (m : Medium π) (p : Part) (pos : ℕ) : Medium π :=
  Function.update m p ((m p).take pos)

/-- Write the records `rs` at position `pos` of partition `p`.  Writing nothing
is a mere synchronisation and cuts nothing. -/
def write (m : Medium π) (p : Part) (pos : ℕ) (rs : List (Record π)) : Medium π :=
  if rs = [] then m else Function.update m p ((m p).take pos ++ rs)

@[simp]
theorem cut_same (m : Medium π) (p : Part) (pos : ℕ) : m.cut p pos p = (m p).take pos := by
  simp [cut]

@[simp]
theorem write_nil (m : Medium π) (p : Part) (pos : ℕ) : m.write p pos [] = m := by
  simp [write]

theorem write_same (m : Medium π) (p : Part) (pos : ℕ) {rs : List (Record π)}
    (hne : rs ≠ []) : m.write p pos rs p = (m p).take pos ++ rs := by
  simp [write, hne]

end Medium

section Written

variable {m : Medium π} {p : Part} {pos : ℕ} {rs : List (Record π)}

theorem take_write (hrs : rs ≠ []) (hpos : pos ≤ (m p).length) :
    (m.write p pos rs p).take (pos + rs.length) = (m p).take pos ++ rs := by
  rw [Medium.write_same m p pos hrs, List.take_of_length_le]
  simp [min_eq_left hpos]

/-- Writing on behind what has been written. -/
theorem write_write (m : Medium π) {more : List (Record π)} (hpos : pos ≤ (m p).length) :
    (m.write p pos rs).write p (pos + rs.length) more =
      m.write p pos (rs ++ more) := by
  by_cases hmore : more = []
  · simp [hmore]
  by_cases hrs : rs = []
  · simp [hrs]
  have hne : rs ++ more ≠ [] := by simp [hrs]
  rw [Medium.write, if_neg hmore, take_write hrs hpos, Medium.write, if_neg hrs,
    Medium.write, if_neg hne, Function.update_idem, List.append_assoc]

end Written

end AuroraLtfs.Tape
