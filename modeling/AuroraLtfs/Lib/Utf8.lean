import Mathlib

/-!
# UTF-8, character by character

`next` takes the first character off a byte string and refuses what is no UTF-8:
overlong forms, surrogates, code points above U+10FFFF and characters that are cut
off.  A string is well formed if characters can be taken off to its end.
-/

namespace AuroraLtfs.Utf8

/-- A byte that continues a character. -/
def isTrail (b : UInt8) : Bool :=
  0x80 ≤ b && b < 0xC0

/-- The code point of the first character, its bytes, and what follows it. -/
def next : List UInt8 → Option (ℕ × List UInt8 × List UInt8)
  | [] => none
  | a :: rest =>
    if a < 0x80 then some (a.toNat, [a], rest)
    else if 0xC2 ≤ a ∧ a < 0xE0 then
      match rest with
      | b :: rest =>
        if isTrail b then
          some (a.toNat % 32 * 64 + b.toNat % 64, [a, b], rest)
        else none
      | _ => none
    else if 0xE0 ≤ a ∧ a < 0xF0 then
      match rest with
      | b :: c :: rest =>
        let code := (a.toNat % 16 * 64 + b.toNat % 64) * 64 + c.toNat % 64
        if isTrail b ∧ isTrail c ∧ 0x800 ≤ code ∧
            ¬(0xD800 ≤ code ∧ code ≤ 0xDFFF) then
          some (code, [a, b, c], rest)
        else none
      | _ => none
    else if 0xF0 ≤ a then
      match rest with
      | b :: c :: d :: rest =>
        let code := ((a.toNat % 16 * 64 + b.toNat % 64) * 64 + c.toNat % 64) * 64 +
          d.toNat % 64
        if a < 0xF5 ∧ isTrail b ∧ isTrail c ∧ isTrail d ∧
            0x10000 ≤ code ∧ code ≤ 0x10FFFF then
          some (code, [a, b, c, d], rest)
        else none
      | _ => none
    else none

/-- A byte of its own, or bytes that are no ASCII. -/
def IsCharacter (code : ℕ) (bytes : List UInt8) : Prop :=
  (∃ a, a < 0x80 ∧ bytes = [a] ∧ code = a.toNat) ∨
    (bytes ≠ [] ∧ ∀ b ∈ bytes, 0x80 ≤ b)

theorem trail_le {b : UInt8} (h : isTrail b) : 0x80 ≤ b := by
  simp only [isTrail, Bool.and_eq_true, decide_eq_true_eq] at h
  exact h.1

theorem next_eq_some {text bytes rest : List UInt8} {code : ℕ}
    (h : next text = some (code, bytes, rest)) :
    text = bytes ++ rest ∧ IsCharacter code bytes := by
  revert h
  fun_cases next text with
  | case1 => exact fun h => nomatch h
  | case2 a rest' ha =>
    rintro ⟨⟩
    exact ⟨rfl, .inl ⟨a, ha, rfl, rfl⟩⟩
  | case3 a ha _ b rest' hb =>
    rintro ⟨⟩
    refine ⟨rfl, .inr ⟨by simp, ?_⟩⟩
    simpa using ⟨UInt8.not_lt.1 ha, trail_le hb⟩
  | case6 a ha _ _ b c rest' code' htrail =>
    intro h
    obtain ⟨-, rfl, rfl⟩ : code' = code ∧ _ = bytes ∧ rest' = rest := by
      simpa using h
    refine ⟨rfl, .inr ⟨by simp, ?_⟩⟩
    simpa using ⟨UInt8.not_lt.1 ha, trail_le htrail.1, trail_le htrail.2.1⟩
  | case9 a ha _ _ _ b c d rest' code' htrail =>
    intro h
    obtain ⟨-, rfl, rfl⟩ : code' = code ∧ _ = bytes ∧ rest' = rest := by
      simpa using h
    refine ⟨rfl, .inr ⟨by simp, ?_⟩⟩
    simpa using ⟨UInt8.not_lt.1 ha, trail_le htrail.2.1, trail_le htrail.2.2.1,
      trail_le htrail.2.2.2.1⟩
  | _ => exact fun h => nomatch h

theorem IsCharacter.length_pos {code : ℕ} {bytes : List UInt8}
    (h : IsCharacter code bytes) : 0 < bytes.length := by
  rcases h with ⟨a, -, rfl, -⟩ | ⟨hne, -⟩
  · simp
  · exact List.length_pos_iff.2 hne

/-- Taking a character off leaves less, so that loops over characters end. -/
theorem next_length {text bytes rest : List UInt8} {code : ℕ}
    (h : next text = some (code, bytes, rest)) : rest.length < text.length := by
  obtain ⟨rfl, hcharacter⟩ := next_eq_some h
  have := hcharacter.length_pos
  simp only [List.length_append]
  omega

/-- A character is taken off whatever follows it. -/
theorem next_append {text bytes rest : List UInt8} {code : ℕ}
    (h : next text = some (code, bytes, rest)) (tail : List UInt8) :
    next (bytes ++ tail) = some (code, bytes, tail) := by
  revert h
  fun_cases next text with
  | case2 a rest' ha =>
    rintro ⟨⟩
    simp [next, ha]
  | case3 a ha hlead b rest' hb =>
    rintro ⟨⟩
    simp [next, ha, hlead, hb]
  | case6 a ha hlead hlead' b c rest' code' htrail =>
    intro h
    obtain ⟨rfl, rfl, rfl⟩ : code' = code ∧ _ = bytes ∧ rest' = rest := by
      simpa using h
    rw [next.eq_def]
    simp only [List.cons_append, List.nil_append]
    rw [if_neg ha, if_neg hlead, if_pos hlead']
    exact if_pos htrail
  | case9 a ha hlead hlead' hlead'' b c d rest' code' htrail =>
    intro h
    obtain ⟨rfl, rfl, rfl⟩ : code' = code ∧ _ = bytes ∧ rest' = rest := by
      simpa using h
    rw [next.eq_def]
    simp only [List.cons_append, List.nil_append]
    rw [if_neg ha, if_neg hlead, if_neg hlead', if_pos hlead'']
    exact if_pos htrail
  | _ => exact fun h => nomatch h

/-- Of a character that is cut off nothing can be taken. -/
theorem next_take {text bytes rest : List UInt8} {code k : ℕ}
    (h : next text = some (code, bytes, rest)) (hk : k < bytes.length) :
    next (bytes.take k) = none := by
  cases hcut : next (bytes.take k) with
  | none => rfl
  | some found =>
    obtain ⟨code', bytes', rest'⟩ := found
    have htext := (next_eq_some hcut).1
    have hwhole := next_append hcut (rest' ++ bytes.drop k)
    rw [← List.append_assoc, ← htext, List.take_append_drop, ← List.append_nil bytes,
      next_append h []] at hwhole
    obtain rfl : bytes = bytes' := by
      injection hwhole with hwhole
      injection hwhole with _ hwhole
      injection hwhole
    have := congrArg List.length htext
    rw [List.length_take, List.length_append] at this
    omega

/-- Whether the bytes are UTF-8 as a whole. -/
def valid (text : List UInt8) : Bool :=
  go text.length text
where
  go : ℕ → List UInt8 → Bool
    | _, [] => true
    | 0, _ :: _ => false
    | fuel + 1, a :: rest =>
      match next (a :: rest) with
      | none => false
      | some (_, _, rest) => go fuel rest

/-- Characters can be taken off to the end. -/
inductive WellFormed : List UInt8 → Prop
  | nil : WellFormed []
  | cons {text bytes rest : List UInt8} {code : ℕ}
      (hnext : next text = some (code, bytes, rest)) (hrest : WellFormed rest) :
      WellFormed text

section WellFormed

variable {text bytes rest tail : List UInt8} {code k : ℕ}

theorem wellFormed_character_iff (hnext : next text = some (code, bytes, rest)) :
    WellFormed (bytes ++ tail) ↔ WellFormed tail := by
  constructor
  · intro h
    cases h' : bytes ++ tail with
    | nil => exact (List.append_eq_nil_iff.1 h').2 ▸ .nil
    | cons a as =>
      rw [h'] at h
      cases h with
      | cons hfirst hrest =>
        rw [← h', next_append hnext tail] at hfirst
        cases hfirst
        exact hrest
  · exact .cons (next_append hnext tail)

/-- Behind whole characters only what follows counts. -/
theorem WellFormed.append_iff (h : WellFormed text) :
    WellFormed (text ++ tail) ↔ WellFormed tail := by
  induction h with
  | nil => exact Iff.rfl
  | cons hnext _ ih =>
    rw [(next_eq_some hnext).1, List.append_assoc, wellFormed_character_iff hnext, ih]

theorem not_wellFormed_take (hnext : next text = some (code, bytes, rest)) (hpos : 0 < k)
    (hk : k < bytes.length) : ¬WellFormed (bytes.take k) := by
  intro h
  generalize hcut : bytes.take k = cut at h
  cases h with
  | nil =>
    have := congrArg List.length hcut
    rw [List.length_take, List.length_nil] at this
    omega
  | cons hfirst _ =>
    rw [← hcut, next_take hnext hk] at hfirst
    cases hfirst

theorem valid_go_iff {fuel : ℕ} {text : List UInt8} (hfuel : text.length ≤ fuel) :
    valid.go fuel text ↔ WellFormed text := by
  induction fuel generalizing text with
  | zero =>
    obtain rfl := List.eq_nil_of_length_eq_zero (Nat.le_zero.1 hfuel)
    simpa [valid.go] using WellFormed.nil
  | succ fuel ih =>
    cases text with
    | nil => simpa [valid.go] using WellFormed.nil
    | cons a as =>
      rw [valid.go]
      split
      next hnext =>
        refine iff_of_false nofun fun h => ?_
        cases h with
        | cons hfirst _ => exact absurd (hnext.symm.trans hfirst) nofun
      next hnext =>
        have hlength := next_length hnext
        rw [ih (by omega), (next_eq_some hnext).1, wellFormed_character_iff hnext]

theorem valid_iff : valid text ↔ WellFormed text :=
  valid_go_iff le_rfl

instance : DecidablePred WellFormed := fun _ => decidable_of_iff _ valid_iff

end WellFormed

end AuroraLtfs.Utf8
