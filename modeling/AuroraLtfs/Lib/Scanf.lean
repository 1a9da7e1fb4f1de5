import Mathlib

/-!
# Decimal conversions of formatted text

The conversion `%0wd` writes an integer with zeros on the left up to `w` characters, and
`%wd` reads one of at most `w` characters.  What is written with at most `w` characters
is read back, and a numeral of exactly `w` digits is what is written for its value.
-/

namespace AuroraLtfs.Scanf

/-- The value of a string of decimal digits. -/
def value (digits : List Char) : ℕ :=
  Nat.ofDigits 10 (digits.reverse.map fun c => c.toNat - 48)

def padded (width n : ℕ) : List Char :=
  ((Nat.digits 10 n).reverse.map Nat.digitChar).leftpad width '0'

/-- `printf` with `%0wd` -/
def format (width : ℕ) (n : ℤ) : List Char :=
  if 0 ≤ n then padded width n.toNat else '-' :: padded (width - 1) (-n).toNat

def isSpace (c : Char) : Bool :=
  c ∈ [' ', '\t', '\n', '\x0b', '\x0c', '\r']

def scanDigits (width : ℕ) (text : List Char) : Option (ℕ × List Char) :=
  let digits := (text.take width).takeWhile Char.isDigit
  if digits = [] then none else some (value digits, text.drop digits.length)

/-- `scanf` with `%wd`: the integer and the text after it.  White space in front does
not count for the width, a sign does. -/
def scan (width : ℕ) (text : List Char) : Option (ℤ × List Char) :=
  match text.dropWhile isSpace with
  | '-' :: text => (scanDigits (width - 1) text).map fun (n, rest) => (-(n : ℤ), rest)
  | '+' :: text => (scanDigits (width - 1) text).map fun (n, rest) => ((n : ℤ), rest)
  | text => (scanDigits width text).map fun (n, rest) => ((n : ℤ), rest)

/-- A character of the format that is not part of a conversion. -/
def literal (c : Char) : List Char → Option (List Char)
  | [] => none
  | d :: text => if d = c then some text else none

def IsNumeral (digits : List Char) : Prop :=
  ∀ c ∈ digits, c.isDigit

def IsField (width : ℕ) (digits : List Char) : Prop :=
  IsNumeral digits ∧ digits.length = width

/-! ## Values of numerals -/

theorem toNat_of_isDigit {c : Char} (h : c.isDigit) : 48 ≤ c.toNat ∧ c.toNat ≤ 57 := by
  simpa [Char.isDigit, UInt32.le_iff_toNat_le] using h

theorem isDigit_digitChar {d : ℕ} (h : d < 10) : (Nat.digitChar d).isDigit := by
  interval_cases d <;> rfl

theorem toNat_digitChar {d : ℕ} (h : d < 10) : (Nat.digitChar d).toNat - 48 = d := by
  interval_cases d <;> rfl

theorem digitChar_toNat {c : Char} (h : c.isDigit) : Nat.digitChar (c.toNat - 48) = c := by
  obtain ⟨hlow, hhigh⟩ := toNat_of_isDigit h
  rw [← Char.ofNat_toNat c]
  generalize c.toNat = n at *
  interval_cases n <;> rfl

theorem isNumeral_padded (width n : ℕ) : IsNumeral (padded width n) := by
  intro c hc
  simp only [padded, List.leftpad, List.mem_append, List.mem_replicate, List.mem_map,
    List.mem_reverse] at hc
  rcases hc with ⟨-, rfl⟩ | ⟨d, hd, rfl⟩
  · rfl
  · exact isDigit_digitChar (Nat.digits_lt_base (by norm_num) hd)

theorem value_padded (width n : ℕ) : value (padded width n) = n := by
  have hmap : ((Nat.digits 10 n).reverse.map Nat.digitChar).reverse.map
      (fun c => c.toNat - 48) = Nat.digits 10 n := by
    rw [← List.map_reverse, List.reverse_reverse, List.map_map]
    refine List.map_congr_left (fun d hd => ?_) |>.trans (List.map_id _)
    exact toNat_digitChar (Nat.digits_lt_base (by norm_num) hd)
  rw [value, padded, List.leftpad, List.reverse_append, List.map_append, hmap,
    List.reverse_replicate, List.map_replicate, Nat.ofDigits_append, Nat.ofDigits_digits]
  simp

variable {digits : List Char}

theorem IsNumeral.digit_lt (h : IsNumeral digits) :
    ∀ d ∈ digits.reverse.map (fun c => c.toNat - 48), d < 10 := by
  intro d hd
  obtain ⟨c, hc, rfl⟩ := List.mem_map.mp hd
  have := toNat_of_isDigit (h c (List.mem_reverse.mp hc))
  omega

theorem IsNumeral.map_digitChar (h : IsNumeral digits) :
    (digits.map fun c => c.toNat - 48).map Nat.digitChar = digits := by
  rw [List.map_map]
  exact (List.map_congr_left fun c hc => digitChar_toNat (h c hc)).trans (List.map_id _)

theorem IsNumeral.value_lt (h : IsNumeral digits) : value digits < 10 ^ digits.length := by
  have hlt := Nat.ofDigits_lt_base_pow_length (by norm_num) h.digit_lt
  rwa [List.length_map, List.length_reverse] at hlt

theorem length_padded {width n : ℕ} (h : n < 10 ^ width) :
    (padded width n).length = width := by
  rw [padded, List.length_leftpad, List.length_map, List.length_reverse]
  exact max_eq_left ((Nat.digits_length_le_iff (by norm_num) n).mpr h)

theorem IsNumeral.ext {digits' : List Char} (h : IsNumeral digits) (h' : IsNumeral digits')
    (hlen : digits.length = digits'.length) (hvalue : value digits = value digits') :
    digits = digits' := by
  have hmap := Nat.ofDigits_inj_of_len_eq (by norm_num) (by simpa using hlen) h.digit_lt
    h'.digit_lt hvalue
  rw [List.map_reverse, List.map_reverse, List.reverse_inj] at hmap
  rw [← h.map_digitChar, ← h'.map_digitChar, hmap]

/-- A numeral is what is written for its value. -/
theorem IsNumeral.padded_value (h : IsNumeral digits) :
    padded digits.length (value digits) = digits :=
  (isNumeral_padded _ _).ext h (length_padded h.value_lt) (value_padded _ _)

/-! ## Reading -/

theorem takeWhile_isDigit {rest : List Char} (h : IsNumeral digits)
    (hstop : ∀ c ∈ rest.head?, ¬c.isDigit) :
    (digits ++ rest).takeWhile Char.isDigit = digits := by
  rw [List.takeWhile_append_of_pos h]
  cases rest with
  | nil => simp
  | cons c rest =>
    rw [List.takeWhile_cons_of_neg (hstop c rfl), List.append_nil]

theorem scanDigits_append {width : ℕ} {rest : List Char} (h : IsNumeral digits)
    (hne : digits ≠ []) (hlen : digits.length ≤ width)
    (hstop : digits.length = width ∨ ∀ c ∈ rest.head?, ¬c.isDigit) :
    scanDigits width (digits ++ rest) = some (value digits, rest) := by
  have htake : ((digits ++ rest).take width).takeWhile Char.isDigit = digits := by
    rw [List.take_append, List.take_of_length_le hlen]
    refine takeWhile_isDigit h fun c hc => ?_
    rcases hstop with hwidth | hstop
    · rw [hwidth, Nat.sub_self, List.take_zero] at hc
      exact absurd hc (by simp)
    · cases rest with
      | nil => simp at hc
      | cons first rest =>
        refine hstop c ?_
        cases hk : width - digits.length <;> simp_all
  simp only [scanDigits, htake, if_neg hne, List.drop_left]

/-- What begins with a digit is read without white space and sign. -/
theorem scan_of_isDigit {width : ℕ} {c : Char} (hc : c.isDigit) (text : List Char) :
    scan width (c :: text) =
      (scanDigits width (c :: text)).map fun (n, rest) => ((n : ℤ), rest) := by
  have hne : ∀ d : Char, ¬d.isDigit → c ≠ d := fun d hd heq => hd (heq ▸ hc)
  have hspace : ¬isSpace c := by
    simp only [isSpace, List.mem_cons, List.not_mem_nil, or_false, decide_eq_true_eq,
      not_or]
    exact ⟨hne _ (by decide), hne _ (by decide), hne _ (by decide), hne _ (by decide),
      hne _ (by decide), hne _ (by decide)⟩
  have hminus := hne '-' (by decide)
  have hplus := hne '+' (by decide)
  rw [scan, List.dropWhile_cons_of_neg hspace]
  split
  · simp_all
  · simp_all
  · rfl

theorem scan_minus (width : ℕ) (text : List Char) :
    scan width ('-' :: text) =
      (scanDigits (width - 1) text).map fun (n, rest) => (-(n : ℤ), rest) :=
  rfl

theorem scan_append {width : ℕ} {rest : List Char} (h : IsNumeral digits)
    (hne : digits ≠ []) (hlen : digits.length ≤ width)
    (hstop : digits.length = width ∨ ∀ c ∈ rest.head?, ¬c.isDigit) :
    scan width (digits ++ rest) = some ((value digits : ℤ), rest) := by
  cases digits with
  | nil => exact absurd rfl hne
  | cons c digits =>
    rw [List.cons_append, scan_of_isDigit (h c List.mem_cons_self), ← List.cons_append,
      scanDigits_append h hne hlen hstop]
    rfl

/-- A number that fits in the width is read back. -/
theorem scan_format {width : ℕ} (hwidth : 2 ≤ width) {n : ℤ} (hlow : -10 ^ (width - 1) < n)
    (hhigh : n < 10 ^ width) (rest : List Char) :
    scan width (format width n ++ rest) = some (n, rest) := by
  rw [format]
  split_ifs with hn
  · obtain ⟨k, rfl⟩ := Int.eq_ofNat_of_zero_le hn
    have hlen : (padded width k).length = width := length_padded (by exact_mod_cast hhigh)
    rw [Int.toNat_natCast, scan_append (isNumeral_padded width k)
      (List.ne_nil_of_length_pos (by omega)) hlen.le (Or.inl hlen), value_padded]
  · obtain ⟨k, hk⟩ := Int.eq_ofNat_of_zero_le (show 0 ≤ -n by omega)
    have hlen : (padded (width - 1) k).length = width - 1 := length_padded (by zify; omega)
    rw [hk, Int.toNat_natCast, List.cons_append, scan_minus,
      scanDigits_append (isNumeral_padded _ k) (List.ne_nil_of_length_pos (by omega))
        hlen.le (Or.inl hlen), value_padded]
    simp only [Option.map_some]
    congr 2
    omega

theorem scanDigits_lt {width : ℕ} {text rest : List Char} {n : ℕ}
    (h : scanDigits width text = some (n, rest)) : n < 10 ^ width := by
  have hnum : IsNumeral ((text.take width).takeWhile Char.isDigit) :=
    fun c hc => List.mem_takeWhile_imp hc
  have hlen : ((text.take width).takeWhile Char.isDigit).length ≤ width :=
    ( List.takeWhile_prefix _).length_le.trans (List.length_take_le _ _)
  simp only [scanDigits] at h
  split_ifs at h
  simp only [Option.some.injEq, Prod.mk.injEq] at h
  rw [← h.1]
  exact hnum.value_lt.trans_le (Nat.pow_le_pow_right (by norm_num) hlen)

/-- A number that is read fits in the width. -/
theorem scan_bounds {width : ℕ} (hwidth : 1 ≤ width) {text rest : List Char} {n : ℤ}
    (h : scan width text = some (n, rest)) : -10 ^ (width - 1) < n ∧ n < 10 ^ width := by
  have hpow : (10 : ℤ) ^ (width - 1) ≤ 10 ^ width :=
    pow_le_pow_right₀ (by norm_num) (by omega)
  have hpos : (0 : ℤ) < 10 ^ (width - 1) := by positivity
  rw [scan] at h
  split at h
  all_goals
    obtain ⟨⟨m, rest'⟩, hscan, heq⟩ := Option.map_eq_some_iff.mp h
    simp only [Prod.mk.injEq] at heq
    have hlt := scanDigits_lt hscan
    zify at hlt
    omega

/-! ## Fields of a fixed width -/

theorem scan_field {width : ℕ} (h : IsField width digits) (hpos : 0 < width)
    (rest : List Char) : scan width (digits ++ rest) = some ((value digits : ℤ), rest) :=
  scan_append h.1 (List.ne_nil_of_length_pos (h.2 ▸ hpos)) h.2.le (Or.inl h.2)

theorem format_isField {width : ℕ} {n : ℤ} (h : 0 ≤ n) (h' : n < 10 ^ width) :
    IsField width (format width n) ∧ (value (format width n) : ℤ) = n := by
  obtain ⟨k, rfl⟩ := Int.eq_ofNat_of_zero_le h
  rw [format, if_pos h, Int.toNat_natCast]
  exact ⟨⟨isNumeral_padded width k, length_padded (by exact_mod_cast h')⟩,
    congrArg _ (value_padded width k)⟩

/-- A field is what is written for its value. -/
theorem IsField.format_value {width : ℕ} (h : IsField width digits) :
    format width (value digits) = digits := by
  rw [format, if_pos (Int.natCast_nonneg _), Int.toNat_natCast, ← h.2]
  exact h.1.padded_value

end AuroraLtfs.Scanf
