import Mathlib

/-!
# Glob patterns

A pattern is a list of items: a star stands for any sequence of symbols, the other
items for one symbol each.  Only the star needs a choice, and the choices of an earlier
star are covered by those of a later one: whatever can follow the later star from some
place can follow it from any place before.
-/

namespace AuroraLtfs.Glob

variable {α : Type*}

inductive Item (α : Type*)
  | star
  | any
  | lit (a : α)
  deriving DecidableEq

/-- The language of a pattern. -/
def Matches : List (Item α) → List α → Prop
  | [], w => w = []
  | .star :: p, w => ∃ x z, w = x ++ z ∧ Matches p z
  | .any :: p, w => ∃ c z, w = c :: z ∧ Matches p z
  | .lit a :: p, w => ∃ z, w = a :: z ∧ Matches p z

/-- The item takes exactly the symbol `c`. -/
def Item.Takes (i : Item α) (c : α) : Prop :=
  i = .any ∨ i = .lit c

variable {p s : List (Item α)} {w : List α} {i : Item α}

theorem matches_star : Matches (.star :: p) w ↔ ∃ z, z <:+ w ∧ Matches p z := by
  rw [Matches]
  constructor
  · rintro ⟨x, z, rfl, h⟩
    exact ⟨z, List.suffix_append x z, h⟩
  · rintro ⟨z, ⟨x, rfl⟩, h⟩
    exact ⟨x, z, rfl, h⟩

theorem matches_cons (hi : i ≠ .star) :
    Matches (i :: p) w ↔ ∃ c z, w = c :: z ∧ i.Takes c ∧ Matches p z := by
  cases i with
  | star => exact absurd rfl hi
  | any => simp [Matches, Item.Takes]
  | lit a => simp [Matches, Item.Takes]

theorem matches_cons_nil (hi : i ≠ .star) : ¬Matches (i :: p) [] := by
  simp [matches_cons hi]

theorem matches_cons_cons (hi : i ≠ .star) {c : α} :
    Matches (i :: p) (c :: w) ↔ i.Takes c ∧ Matches p w := by
  simp [matches_cons hi]

theorem matches_star_of_suffix {z : List α} (hz : z <:+ w) (h : Matches (.star :: p) z) :
    Matches (.star :: p) w := by
  obtain ⟨y, hy, h⟩ := matches_star.1 h
  exact matches_star.2 ⟨y, hy.trans hz, h⟩

theorem matches_star_nil : Matches (.star :: p) [] ↔ Matches p [] := by
  simp [matches_star]

theorem matches_star_cons {c : α} :
    Matches (.star :: p) (c :: w) ↔ Matches p (c :: w) ∨ Matches (.star :: p) w := by
  simp only [matches_star, List.suffix_cons_iff]
  constructor
  · rintro ⟨z, rfl | hz, h⟩
    · exact .inl h
    · exact .inr ⟨z, hz, h⟩
  · rintro (h | ⟨z, hz, h⟩)
    · exact ⟨c :: w, .inl rfl, h⟩
    · exact ⟨z, .inr hz, h⟩

theorem matches_star_star : Matches (.star :: .star :: p) w ↔ Matches (.star :: p) w := by
  constructor
  · intro h
    obtain ⟨z, hz, h⟩ := matches_star.1 h
    exact matches_star_of_suffix hz h
  · exact fun h => matches_star.2 ⟨w, List.suffix_rfl, h⟩

theorem matches_star_end : Matches [.star] w :=
  matches_star.2 ⟨[], List.nil_suffix, rfl⟩

/-- Items that are no stars take one symbol each. -/
theorem matches_append (hs : .star ∉ s) (h : Matches (s ++ p) w) :
    ∃ z, z <:+ w ∧ z.length + s.length = w.length ∧
      Matches p z := by
  induction s generalizing w with
  | nil => exact ⟨w, List.suffix_rfl, rfl, h⟩
  | cons i s ih =>
    rw [List.mem_cons, not_or] at hs
    obtain ⟨c, w, rfl, -, h⟩ := (matches_cons (Ne.symm hs.1)).1 h
    obtain ⟨z, hz, hlength, h⟩ := ih hs.2 h
    refine ⟨z, hz.trans (List.suffix_cons c w), ?_, h⟩
    simp only [List.length_cons]
    omega

/-- A later star makes up for an earlier one: if the pattern from the earlier star on
matches some later part, then it matches from the later star on wherever the items
between them have been taken at the first place. -/
theorem matches_later_star (hs : .star ∉ s) {v : List α} (hlength : v.length ≤ s.length)
    (h : Matches (.star :: (s ++ .star :: p)) (v ++ w)) : Matches (.star :: p) w := by
  obtain ⟨u, hu, h⟩ := matches_star.1 h
  obtain ⟨z, hz, hz', h⟩ := matches_append hs h
  refine matches_star_of_suffix ?_ h
  refine List.suffix_of_suffix_length_le (hz.trans hu) (List.suffix_append v w) ?_
  have := hu.length_le
  simp only [List.length_append] at this
  omega

end AuroraLtfs.Glob
