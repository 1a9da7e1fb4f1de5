import Mathlib

/-!
# Base64

The base64 encoding of RFC 4648, decoding side.  Four characters of the alphabet
stand for three bytes; the last group may stand for two bytes or one, and is then
filled up with padding characters.
-/

namespace AuroraLtfs.Base64

/-- The padding character. -/
def pad : UInt8 := 61

/-- Table 1 of RFC 4648. -/
def value? (c : UInt8) : Option ℕ :=
  if 65 ≤ c ∧ c ≤ 90 then some (c.toNat - 65)
  else if 97 ≤ c ∧ c ≤ 122 then some (c.toNat - 97 + 26)
  else if 48 ≤ c ∧ c ≤ 57 then some (c.toNat - 48 + 52)
  else if c = 43 then some 62
  else if c = 47 then some 63
  else none

/-- The three bytes of a group, from its 24 bits. -/
def bytes3 (x y z w : ℕ) : List UInt8 :=
  let bits := ((x * 64 + y) * 64 + z) * 64 + w
  [UInt8.ofNat (bits / 65536), UInt8.ofNat (bits / 256), UInt8.ofNat bits]

/-- The two bytes of a group with one padding character. -/
def bytes2 (x y z : ℕ) : List UInt8 :=
  let bits := (x * 64 + y) * 64 + z
  [UInt8.ofNat (bits / 1024), UInt8.ofNat (bits / 4)]

/-- The byte of a group with two padding characters. -/
def bytes1 (x y : ℕ) : List UInt8 :=
  [UInt8.ofNat ((x * 64 + y) / 16)]

/-- Decode a sequence of groups, of which only the last may be padded. -/
def decodeGroups : List UInt8 → Option (List UInt8)
  | [] => some []
  | a :: b :: c :: d :: rest =>
    match value? a, value? b with
    | some x, some y =>
      if c = pad ∧ d = pad ∧ rest = [] then some (bytes1 x y)
      else match value? c with
        | some z =>
          if d = pad ∧ rest = [] then some (bytes2 x y z)
          else match value? d with
            | some w => (decodeGroups rest).map (bytes3 x y z w ++ ·)
            | none => none
        | none => none
    | _, _ => none
  | _ => none

/-- Decode a text of at least one group. -/
def decode (text : List UInt8) : Option (List UInt8) :=
  if text = [] then none else decodeGroups text

/-- Only characters of the alphabet, and behind them one or two padding characters
or none. -/
def WellPadded : List UInt8 → Prop
  | [] => True
  | c :: rest => (c = pad ∧ (rest = [] ∨ rest = [pad])) ∨
      (value? c ≠ none ∧ WellPadded rest)

theorem value?_pad : value? pad = none := rfl

theorem ne_pad_of_value? {c : UInt8} {x : ℕ} (h : value? c = some x) : c ≠ pad := by
  rintro rfl
  exact absurd h (by simp [value?_pad])

theorem value?_lt {c : UInt8} {x : ℕ} (h : value? c = some x) : x < 64 := by
  have hall : ∀ c : UInt8, ∀ x ∈ value? c, x < 64 := by decide +kernel
  exact hall c x h

theorem wellPadded_cons {c : UInt8} {rest : List UInt8} (hc : c ≠ pad) :
    WellPadded (c :: rest) ↔ value? c ≠ none ∧ WellPadded rest := by
  simp [WellPadded, hc]

theorem wellPadded_pad {rest : List UInt8} :
    WellPadded (pad :: rest) ↔ rest = [] ∨ rest = [pad] := by
  simp [WellPadded, value?_pad]

/-- What a text decodes to has three bytes for every group, less the padding. -/
theorem decodeGroups_length {text out : List UInt8} (h : decodeGroups text = some out) :
    out.length + text.count pad = 3 * (text.length / 4) := by
  fun_induction decodeGroups text generalizing out with
  | case1 => cases h; rfl
  | case2 a b c d rest x y hy hx hpad =>
    obtain ⟨rfl, rfl, rfl⟩ := hpad
    cases h
    simp [bytes1, ne_pad_of_value? hx, ne_pad_of_value? hy]
  | case3 a b c d rest x y hy hx _ z hz hpad =>
    obtain ⟨rfl, rfl⟩ := hpad
    cases h
    simp [bytes2, ne_pad_of_value? hx, ne_pad_of_value? hy, ne_pad_of_value? hz]
  | case4 a b c d rest x y hy hx _ z hz _ w hw ih =>
    obtain ⟨out', hout, rfl⟩ := Option.map_eq_some_iff.1 h
    have hlength := ih hout
    rw [List.count_cons_of_ne (ne_pad_of_value? hx),
      List.count_cons_of_ne (ne_pad_of_value? hy),
      List.count_cons_of_ne (ne_pad_of_value? hz),
      List.count_cons_of_ne (ne_pad_of_value? hw)]
    simp only [bytes3, List.length_append, List.length_cons, List.length_nil]
    omega
  | case5 => cases h
  | case6 => cases h
  | case7 => cases h
  | case8 => cases h

/-- A text can be decoded iff it is made of whole groups. -/
theorem decodeGroups_isSome_iff (text : List UInt8) :
    (decodeGroups text).isSome ↔ WellPadded text ∧ 4 ∣ text.length := by
  fun_induction decodeGroups text with
  | case1 => simp [WellPadded]
  | case2 a b c d rest x y hy hx hpad =>
    obtain ⟨rfl, rfl, rfl⟩ := hpad
    simp [WellPadded, hx, hy]
  | case3 a b c d rest x y hy hx _ z hz hpad =>
    obtain ⟨rfl, rfl⟩ := hpad
    simp [WellPadded, hx, hy, hz]
  | case4 a b c d rest x y hy hx _ z hz _ w hw ih =>
    have hlength : 4 ∣ (a :: b :: c :: d :: rest).length ↔ 4 ∣ rest.length := by
      simp only [List.length_cons]
      omega
    rw [Option.isSome_map, ih, hlength]
    simp [WellPadded, hx, hy, hz, hw, ne_pad_of_value? hx, ne_pad_of_value? hy,
      ne_pad_of_value? hz, ne_pad_of_value? hw]
  | case5 a b c d rest x y hy hx _ z hz hpad hw =>
    simp only [Option.isSome_none, Bool.false_eq_true, false_iff, not_and]
    intro hshape
    simp only [WellPadded, hx, hy, hz, hw, ne_pad_of_value? hx, ne_pad_of_value? hy,
      ne_pad_of_value? hz] at hshape
    obtain ⟨rfl, rfl | rfl⟩ : d = pad ∧ (rest = [] ∨ rest = [pad]) := by simpa using hshape
    · exact absurd ⟨rfl, rfl⟩ hpad
    · simp
  | case6 a b c d rest x y hy hx hpad hz =>
    have hshape : ¬WellPadded (a :: b :: c :: d :: rest) := by
      simpa [WellPadded, hx, hy, hz, ne_pad_of_value? hx, ne_pad_of_value? hy] using hpad
    simp [hshape]
  | case7 a b c d rest hnone =>
    have hshape : ¬WellPadded (a :: b :: c :: d :: rest) := by
      cases hx : value? a with
      | none => simp [WellPadded, hx]
      | some x =>
        cases hy : value? b with
        | none => simp [WellPadded, hx, hy, ne_pad_of_value? hx]
        | some y => exact (hnone x y hx hy).elim
    simp [hshape]
  | case8 text hnil hgroup =>
    match text, hnil, hgroup with
    | [_], _, _ => simp
    | [_, _], _, _ => simp
    | [_, _, _], _, _ => simp
    | a :: b :: c :: d :: rest, _, hgroup => exact (hgroup a b c d rest rfl).elim
    | [], hnil, _ => exact (hnil rfl).elim

theorem decodeGroups_ne_nil {text out : List UInt8}
    (h : decodeGroups text = some out) (htext : text ≠ []) : out ≠ [] := by
  fun_induction decodeGroups text with
  | case1 => exact absurd rfl htext
  | case2 => cases h; simp [bytes1]
  | case3 => cases h; simp [bytes2]
  | case4 =>
    obtain ⟨out', -, rfl⟩ := Option.map_eq_some_iff.1 h
    simp [bytes3]
  | case5 => cases h
  | case6 => cases h
  | case7 => cases h
  | case8 => cases h

end AuroraLtfs.Base64
