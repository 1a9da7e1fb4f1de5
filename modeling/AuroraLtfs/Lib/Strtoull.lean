import Mathlib

/-!
# Unsigned numbers in text

`strtoull` with base 10, on the bytes of a string: white space and a sign are skipped,
digits are read as far as they go, a number that does not fit in 64 bits becomes the
largest one, and a minus sign negates in 64 bits.
-/

namespace AuroraLtfs.Strtoull

def isSpace (c : UInt8) : Bool :=
  c = 0x20 || (9 ≤ c && c ≤ 13)

def isDigit (c : UInt8) : Bool :=
  0x30 ≤ c && c ≤ 0x39

def isAlpha (c : UInt8) : Bool :=
  (0x41 ≤ c && c ≤ 0x5A) || (0x61 ≤ c && c ≤ 0x7A)

/-- The number a string of digits stands for. -/
def decimal (digits : List UInt8) : ℕ :=
  digits.foldl (fun n c => 10 * n + (c.toNat - 48)) 0

/-- The digits at the start of a text as a number, and what follows them. -/
def readDigits (negative : Bool) (text : List UInt8) : Option (ℕ × List UInt8) :=
  let digits := text.takeWhile isDigit
  if digits = [] then none
  else
    let n := decimal digits
    some (if 2 ^ 64 ≤ n then 2 ^ 64 - 1 else if negative then (2 ^ 64 - n) % 2 ^ 64 else n,
      text.dropWhile isDigit)

/-- The number, and what follows it; without digits the number is 0 and nothing has been
read. -/
def strtoull (text : List UInt8) : ℕ × List UInt8 :=
  let number :=
    match text.dropWhile isSpace with
    | 0x2D :: text => readDigits true text
    | 0x2B :: text => readDigits false text
    | text => readDigits false text
  number.getD (0, text)

theorem not_isSpace_of_isDigit : ∀ c : UInt8, isDigit c = true → isSpace c = false := by
  decide +kernel

theorem not_isAlpha_of_isDigit : ∀ c : UInt8, isDigit c = true → isAlpha c = false := by
  decide +kernel

/-- A text that starts with a digit is read from there. -/
theorem strtoull_of_isDigit {c : UInt8} (hc : isDigit c = true) (text : List UInt8) :
    strtoull (c :: text) =
      (min (decimal ((c :: text).takeWhile isDigit)) (2 ^ 64 - 1),
        (c :: text).dropWhile isDigit) := by
  have hspace := not_isSpace_of_isDigit c hc
  have hminus : c ≠ 0x2D := by rintro rfl; exact absurd hc (by decide)
  have hplus : c ≠ 0x2B := by rintro rfl; exact absurd hc (by decide)
  rw [strtoull, List.dropWhile_cons_of_neg (by simp [hspace])]
  split
  · simp_all
  · simp_all
  · rw [readDigits, List.takeWhile_cons_of_pos hc]
    simp only [List.cons_ne_nil, if_false, Bool.false_eq_true, Option.getD_some]
    congr 1
    split_ifs <;> omega

end AuroraLtfs.Strtoull
