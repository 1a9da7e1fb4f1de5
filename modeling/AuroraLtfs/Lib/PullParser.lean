import Mathlib

/-!
# Pull parsers

A pull parser asks for its input piece by piece and stops when it has seen
enough.  What it does next depends on the bytes it has been given so far.  A run
over an input yields the parser's result and the number of bytes it has asked
for, which tells how far behind the end of the document, or of the input, the
parser has looked.
-/

namespace AuroraLtfs

/-- What a pull parser does next. -/
inductive Pull (ρ : Type*) where
  | more (len : ℕ)
  | done (result : ρ)
  deriving DecidableEq, Repr

/-- A parser, by what it does after the bytes it has been given; `atEnd` is its
result where the input ends behind them. -/
structure PullParser (β ρ : Type*) where
  next : List β → Pull ρ
  atEnd : List β → ρ

namespace PullParser

variable {β ρ : Type*} (P : PullParser β ρ)

/-- The run from a state in which the bytes `fed` have been given, `rest` is
left of the input, and `asked` bytes have been asked for.  Every round but the
last takes a byte, so the length of the input bounds the number of rounds. -/
def runFrom : ℕ → List β → List β → ℕ → ρ × ℕ
  | 0, fed, _, asked => (P.atEnd fed, asked)
  | fuel + 1, fed, rest, asked =>
    match P.next fed with
    | .done result => (result, asked)
    | .more len =>
      if rest.take len = [] then (P.atEnd fed, asked + len)
      else runFrom fuel (fed ++ rest.take len) (rest.drop len) (asked + len)

/-- The result of parsing `input`. -/
def result (input : List β) : ρ := (P.runFrom (input.length + 1) [] input 0).1

/-- The number of bytes the parser asks for to parse `input`. -/
def demand (input : List β) : ℕ := (P.runFrom (input.length + 1) [] input 0).2

/-- A bound above the length of the input makes no difference. -/
theorem runFrom_of_lt {fuel : ℕ} {rest : List β} (fed : List β) (asked : ℕ)
    (hfuel : rest.length < fuel) :
    P.runFrom fuel fed rest asked = P.runFrom (rest.length + 1) fed rest asked := by
  induction fuel using Nat.strong_induction_on generalizing fed rest asked with
  | _ fuel ih =>
    obtain ⟨n, rfl⟩ : ∃ n, fuel = n + 1 := ⟨fuel - 1, by omega⟩
    rw [runFrom, runFrom]
    cases P.next fed with
    | done result => rfl
    | more len =>
      dsimp only
      split_ifs with hend
      · rfl
      -- the rest has become shorter
      have hrest : rest ≠ [] := by
        rintro rfl
        exact hend (by simp)
      have hpos : 0 < len := by
        by_contra hzero
        obtain rfl : len = 0 := by omega
        exact hend (by simp)
      have hless : (rest.drop len).length < rest.length := by
        rw [List.length_drop]
        have := List.length_pos_of_ne_nil hrest
        omega
      rw [ih n (by omega) _ _ (by omega), ih rest.length hfuel _ _ hless]

end PullParser

end AuroraLtfs
