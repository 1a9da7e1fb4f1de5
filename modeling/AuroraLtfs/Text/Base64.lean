import AuroraLtfs.Lib.Base64

/-!
# Decoding base64 values

`base64_decode` turns the value of an extended attribute back into bytes.  A first
loop looks for characters that do not belong into the text and counts white space and
padding; a second one assembles the groups.  The first loop expects the padding in the
last two places of the text as it stands, so it takes padding for an invalid character
when white space follows it, which the decoder is meant to ignore.
-/

namespace AuroraLtfs.Text

open Base64

/-- `base64_enc` -/
def base64Enc : List UInt8 :=
  ['A', 'B', 'C', 'D', 'E', 'F', 'G', 'H', 'I', 'J', 'K', 'L', 'M', 'N', 'O', 'P',
    'Q', 'R', 'S', 'T', 'U', 'V', 'W', 'X', 'Y', 'Z', 'a', 'b', 'c', 'd', 'e', 'f',
    'g', 'h', 'i', 'j', 'k', 'l', 'm', 'n', 'o', 'p', 'q', 'r', 's', 't', 'u', 'v',
    'w', 'x', 'y', 'z', '0', '1', '2', '3', '4', '5', '6', '7', '8', '9', '+',
    '/'].map fun c => UInt8.ofNat c.toNat

/-- `base64_dec`, filled from `base64_enc` -/
def base64Dec (c : UInt8) : UInt8 :=
  match base64Enc.idxOf? c with
  | some i => UInt8.ofNat i
  | none => 255

/-- `'\r'`, `'\n'`, `' '` or `'\t'` -/
def isSpace (c : UInt8) : Bool :=
  c = 13 || c = 10 || c = 32 || c = 9

/-- What the first loop counts. -/
structure Tally where
  nequal : ℕ
  nbytesReal : ℕ

/-- One round of the first loop, at a character between `prev` and `rest`. -/
def tallyChar (prev : Option UInt8) (c : UInt8) (rest : List UInt8) (t : Tally) :
    Option Tally :=
  if c = pad ∧ rest = [pad] then some { t with nequal := 2 }
  else if rest = [] ∧ c = pad then
    -- nothing stands before a single character; its length is refused below
    if prev ≠ some pad then some { t with nequal := 1 } else some t
  else if isSpace c then some { t with nbytesReal := t.nbytesReal - 1 }
  else if base64Dec c = 255 then none
  else some t

def tally (prev : Option UInt8) : List UInt8 → Tally → Option Tally
  | [], t => some t
  | c :: rest, t => (tallyChar prev c rest t).bind (tally (some c) rest)

/-- The output of one group. -/
def writeQuad (dec : List UInt8) (outPos : ℕ) (q0 q1 q2 q3 : UInt8) : List UInt8 :=
  let dec := dec.set outPos (q0 <<< 2 ||| (q1 &&& 0x30) >>> 4)
  if q2 = 255 then dec
  else
    let dec := dec.set (outPos + 1) ((q1 &&& 0xF) <<< 4 ||| (q2 &&& 0x3C) >>> 2)
    if q3 = 255 then dec
    else dec.set (outPos + 2) ((q2 &&& 0x3) <<< 6 ||| q3)

/-- The second loop. -/
def generate (dec : List UInt8) (outPos : ℕ) (curQuad : List UInt8) :
    List UInt8 → List UInt8
  | [] => dec
  | c :: rest =>
    if isSpace c then generate dec outPos curQuad rest
    else match curQuad ++ [base64Dec c] with
      | [q0, q1, q2, q3] =>
        generate (writeQuad dec outPos q0 q1 q2 q3) (outPos + 3) [] rest
      | curQuad => generate dec outPos curQuad rest

/-- The output buffer, or nothing where `base64_decode` returns 0.  The buffer first
holds what `fresh` says. -/
def base64Decode (fresh : ℕ → UInt8) (enc : List UInt8) : Option (List UInt8) :=
  if enc = [] then none
  else match tally none enc { nequal := 0, nbytesReal := enc.length } with
    | none => none
    | some t =>
      if t.nbytesReal % 4 ≠ 0 then none
      else
        let nout := 3 * (t.nbytesReal / 4) - t.nequal
        let dec := generate ((List.range nout).map fresh) 0 [] enc
        if nout = 0 then none else some dec

/-- The text without its white space. -/
def strip (enc : List UInt8) : List UInt8 :=
  enc.filter fun c => !isSpace c

/-- White space stands somewhere behind the first padding character. -/
def SpaceInPadding (enc : List UInt8) : Prop :=
  ∃ c ∈ enc.dropWhile (· ≠ pad), isSpace c

theorem base64Dec_eq (c : UInt8) : base64Dec c = ((value? c).map UInt8.ofNat).getD 255 := by
  revert c
  decide +kernel

theorem ofNat_ne_max {x : ℕ} (h : x < 64) : UInt8.ofNat x ≠ 255 := by
  rw [ne_eq, ← UInt8.toNat_inj, UInt8.toNat_ofNat']
  simp only [UInt8.reduceToNat]
  omega

theorem base64Dec_eq_max (c : UInt8) : base64Dec c = 255 ↔ value? c = none := by
  rw [base64Dec_eq]
  cases hvalue : value? c with
  | none => simp
  | some x => simpa using ofNat_ne_max (value?_lt hvalue)

theorem isSpace_value? {c : UInt8} (h : isSpace c) : value? c = none := by
  revert c
  decide +kernel

theorem spaceInPadding_cons {c : UInt8} (hc : c ≠ pad) (rest : List UInt8) :
    SpaceInPadding (c :: rest) ↔ SpaceInPadding rest := by
  simp [SpaceInPadding, hc]

theorem spaceInPadding_pad (rest : List UInt8) :
    SpaceInPadding (pad :: rest) ↔ ∃ c ∈ rest, isSpace c := by
  have hpad : isSpace pad = false := rfl
  simp [SpaceInPadding, hpad]

theorem strip_cons (c : UInt8) (rest : List UInt8) :
    strip (c :: rest) = if isSpace c then strip rest else c :: strip rest := by
  cases hc : isSpace c <;> simp [strip, hc]

theorem strip_eq_self {enc : List UInt8} (h : ¬∃ c ∈ enc, isSpace c) : strip enc = enc := by
  rw [strip, List.filter_eq_self]
  intro c hc
  simpa using fun hspace => h ⟨c, hc, hspace⟩

/-! ## The first loop -/

theorem tallyChar_of_ne_pad {c : UInt8} (hc : c ≠ pad) (prev : Option UInt8)
    (rest : List UInt8) (t : Tally) :
    tallyChar prev c rest t =
      if isSpace c then some { t with nbytesReal := t.nbytesReal - 1 }
      else if value? c = none then none else some t := by
  simp only [tallyChar, hc, false_and, and_false, if_false, base64Dec_eq_max]

/-- Padding is counted where it ends the text, and refused elsewhere. -/
theorem tally_pad {prev : Option UInt8} (hprev : prev ≠ some pad) (rest : List UInt8)
    (n : ℕ) :
    tally prev (pad :: rest) { nequal := 0, nbytesReal := n } =
      if rest = [] ∨ rest = [pad] then
        some { nequal := (pad :: rest).count pad, nbytesReal := n }
      else none := by
  match rest with
  | [] => simp [tally, tallyChar, hprev]
  | [c] =>
    by_cases hc : c = pad
    · subst hc
      simp [tally, tallyChar]
    · have hrefused : base64Dec pad = 255 ∧ isSpace pad = false := ⟨rfl, rfl⟩
      simp [tally, tallyChar, hc, hrefused]
  | c :: d :: rest =>
    have hrefused : base64Dec pad = 255 ∧ isSpace pad = false := ⟨rfl, rfl⟩
    simp [tally, tallyChar, hrefused]

/-- The first loop accepts a text that is well padded, if all white space stands
before the padding. -/
theorem tally_iff (enc : List UInt8) (prev : Option UInt8) (n : ℕ)
    (hprev : prev ≠ some pad) (t : Tally) :
    tally prev enc { nequal := 0, nbytesReal := n } = some t ↔
      (WellPadded (strip enc) ∧ ¬SpaceInPadding enc) ∧
        { nequal := enc.count pad, nbytesReal := n - enc.countP isSpace } = t := by
  induction enc generalizing prev n with
  | nil => simp [tally, strip, WellPadded, SpaceInPadding]
  | cons c rest ih =>
    by_cases hc : c = pad
    · subst hc
      have hpad : isSpace pad = false := rfl
      rw [tally_pad hprev, spaceInPadding_pad, strip_cons, hpad, List.countP_cons, hpad]
      by_cases hspace : ∃ c ∈ rest, isSpace c
      · have hrest : ¬(rest = [] ∨ rest = [pad]) := by
          rintro (rfl | rfl) <;> simp [hpad] at hspace
        simp [hspace, hrest]
      · have hnone : rest.countP isSpace = 0 := by
          simpa [List.countP_eq_zero] using hspace
        simp only [strip_eq_self hspace, hspace, hnone]
        by_cases hrest : rest = [] ∨ rest = [pad] <;> simp [hrest, wellPadded_pad]
    · rw [tally, tallyChar_of_ne_pad hc, spaceInPadding_cons hc, strip_cons,
        List.count_cons_of_ne hc, List.countP_cons]
      have hnext : some c ≠ some pad := by simpa using hc
      by_cases hspace : isSpace c
      · simp only [hspace, if_true, Option.bind_some, ih (some c) (n - 1) hnext]
        rw [Nat.sub_sub, Nat.add_comm 1]
      · by_cases hvalue : value? c = none
        · simp [hspace, hvalue, WellPadded, hc]
        · simp [hspace, hvalue, wellPadded_cons hc, ih (some c) n hnext]

/-! ## The second loop -/

theorem generate_strip (dec : List UInt8) (outPos : ℕ) (curQuad enc : List UInt8) :
    generate dec outPos curQuad enc = generate dec outPos curQuad (strip enc) := by
  induction enc generalizing dec outPos curQuad with
  | nil => rfl
  | cons c rest ih =>
    rw [strip_cons]
    cases hc : isSpace c with
    | true => simpa [generate, hc] using ih dec outPos curQuad
    | false =>
      simp only [generate, hc, Bool.false_eq_true, if_false]
      split
      · exact ih _ _ _
      · exact ih _ _ _

/-- Four characters in a row make a group. -/
theorem generate_group {a b c d : UInt8} (ha : isSpace a = false)
    (hb : isSpace b = false) (hc : isSpace c = false) (hd : isSpace d = false)
    (dec rest : List UInt8) (outPos : ℕ) :
    generate dec outPos [] (a :: b :: c :: d :: rest) =
      generate (writeQuad dec outPos (base64Dec a) (base64Dec b) (base64Dec c)
        (base64Dec d)) (outPos + 3) [] rest := by
  simp [generate, ha, hb, hc, hd]

theorem firstByte {x y : ℕ} (hx : x < 64) (hy : y < 64) :
    UInt8.ofNat x <<< 2 ||| (UInt8.ofNat y &&& 0x30) >>> 4 =
      UInt8.ofNat ((x * 64 + y) / 16) := by
  have hall : ∀ x y : Fin 64, UInt8.ofNat x <<< 2 ||| (UInt8.ofNat y &&& 0x30) >>> 4 =
      UInt8.ofNat ((x * 64 + y : ℕ) / 16) := by decide +kernel
  exact hall ⟨x, hx⟩ ⟨y, hy⟩

theorem secondByte {y z : ℕ} (hy : y < 64) (hz : z < 64) :
    (UInt8.ofNat y &&& 0xF) <<< 4 ||| (UInt8.ofNat z &&& 0x3C) >>> 2 =
      UInt8.ofNat ((y * 64 + z) / 4) := by
  have hall : ∀ y z : Fin 64,
      (UInt8.ofNat y &&& 0xF) <<< 4 ||| (UInt8.ofNat z &&& 0x3C) >>> 2 =
        UInt8.ofNat ((y * 64 + z : ℕ) / 4) := by decide +kernel
  exact hall ⟨y, hy⟩ ⟨z, hz⟩

theorem thirdByte {z w : ℕ} (hz : z < 64) (hw : w < 64) :
    (UInt8.ofNat z &&& 0x3) <<< 6 ||| UInt8.ofNat w = UInt8.ofNat (z * 64 + w) := by
  have hall : ∀ z w : Fin 64,
      (UInt8.ofNat z &&& 0x3) <<< 6 ||| UInt8.ofNat w =
        UInt8.ofNat (z * 64 + w : ℕ) := by decide +kernel
  exact hall ⟨z, hz⟩ ⟨w, hw⟩

theorem ofNat_eq_of_mod {m n : ℕ} (h : m % 256 = n % 256) :
    UInt8.ofNat m = UInt8.ofNat n := by
  rw [← UInt8.toNat_inj, UInt8.toNat_ofNat', UInt8.toNat_ofNat']
  exact h

theorem base64Dec_of_value? {c : UInt8} {x : ℕ} (h : value? c = some x) :
    base64Dec c = UInt8.ofNat x := by
  simp [base64Dec_eq, h]

theorem writeQuad_one {x y : ℕ} (hx : x < 64) (hy : y < 64) (front : List UInt8)
    (o : UInt8) :
    writeQuad (front ++ [o]) front.length (UInt8.ofNat x) (UInt8.ofNat y) 255 255 =
      front ++ bytes1 x y := by
  simp [writeQuad, bytes1, firstByte hx hy]

theorem writeQuad_two {x y z : ℕ} (hx : x < 64) (hy : y < 64) (hz : z < 64)
    (front : List UInt8) (o₁ o₂ : UInt8) :
    writeQuad (front ++ [o₁, o₂]) front.length (UInt8.ofNat x) (UInt8.ofNat y)
      (UInt8.ofNat z) 255 = front ++ bytes2 x y z := by
  have hfirst : UInt8.ofNat ((x * 64 + y) / 16) =
      UInt8.ofNat (((x * 64 + y) * 64 + z) / 1024) := ofNat_eq_of_mod (by omega)
  have hsecond : UInt8.ofNat ((y * 64 + z) / 4) =
      UInt8.ofNat (((x * 64 + y) * 64 + z) / 4) := ofNat_eq_of_mod (by omega)
  simp [writeQuad, bytes2, firstByte hx hy, secondByte hy hz, ofNat_ne_max hz, hfirst,
    hsecond]

theorem writeQuad_three {x y z w : ℕ} (hx : x < 64) (hy : y < 64) (hz : z < 64)
    (hw : w < 64) (front old : List UInt8) (o₁ o₂ o₃ : UInt8) :
    writeQuad (front ++ o₁ :: o₂ :: o₃ :: old) front.length (UInt8.ofNat x)
      (UInt8.ofNat y) (UInt8.ofNat z) (UInt8.ofNat w) =
        (front ++ bytes3 x y z w) ++ old := by
  have hfirst : UInt8.ofNat ((x * 64 + y) / 16) =
      UInt8.ofNat ((((x * 64 + y) * 64 + z) * 64 + w) / 65536) :=
    ofNat_eq_of_mod (by omega)
  have hsecond : UInt8.ofNat ((y * 64 + z) / 4) =
      UInt8.ofNat ((((x * 64 + y) * 64 + z) * 64 + w) / 256) :=
    ofNat_eq_of_mod (by omega)
  have hthird : UInt8.ofNat (z * 64 + w) =
      UInt8.ofNat (((x * 64 + y) * 64 + z) * 64 + w) := ofNat_eq_of_mod (by omega)
  simp [writeQuad, bytes3, firstByte hx hy, secondByte hy hz, thirdByte hz hw,
    ofNat_ne_max hz, ofNat_ne_max hw, hfirst, hsecond, hthird]

theorem isSpace_of_value? {c : UInt8} {x : ℕ} (h : value? c = some x) :
    isSpace c = false := by
  by_contra hspace
  rw [isSpace_value? (by simpa using hspace)] at h
  cases h

/-- The second loop puts the decoded text behind `front`. -/
theorem generate_decodeGroups {text out : List UInt8} (h : decodeGroups text = some out)
    (front old : List UInt8) (hlength : old.length = out.length) :
    generate (front ++ old) front.length [] text = front ++ out := by
  have hpad : isSpace pad = false ∧ base64Dec pad = 255 := ⟨rfl, rfl⟩
  fun_induction decodeGroups text generalizing out front old with
  | case1 =>
    cases h
    simp [generate, List.length_eq_zero_iff.1 hlength]
  | case2 a b c d rest x y hy hx hpads =>
    obtain ⟨rfl, rfl, rfl⟩ := hpads
    cases h
    obtain ⟨o, rfl⟩ := List.length_eq_one_iff.1 hlength
    rw [generate_group (isSpace_of_value? hx) (isSpace_of_value? hy) hpad.1 hpad.1,
      base64Dec_of_value? hx, base64Dec_of_value? hy, hpad.2,
      writeQuad_one (value?_lt hx) (value?_lt hy), generate]
  | case3 a b c d rest x y hy hx _ z hz hpads =>
    obtain ⟨rfl, rfl⟩ := hpads
    cases h
    obtain ⟨o₁, o₂, rfl⟩ := List.length_eq_two.1 hlength
    rw [generate_group (isSpace_of_value? hx) (isSpace_of_value? hy)
        (isSpace_of_value? hz) hpad.1, base64Dec_of_value? hx, base64Dec_of_value? hy,
      base64Dec_of_value? hz, hpad.2,
      writeQuad_two (value?_lt hx) (value?_lt hy) (value?_lt hz), generate]
  | case4 a b c d rest x y hy hx _ z hz _ w hw ih =>
    obtain ⟨out', hout, rfl⟩ := Option.map_eq_some_iff.1 h
    rcases old with _ | ⟨o₁, _ | ⟨o₂, _ | ⟨o₃, old⟩⟩⟩
    case cons.cons.cons =>
      have hold : old.length = out'.length := by
        simpa [bytes3] using hlength
      rw [generate_group (isSpace_of_value? hx) (isSpace_of_value? hy)
          (isSpace_of_value? hz) (isSpace_of_value? hw), base64Dec_of_value? hx,
        base64Dec_of_value? hy, base64Dec_of_value? hz, base64Dec_of_value? hw,
        writeQuad_three (value?_lt hx) (value?_lt hy) (value?_lt hz) (value?_lt hw)]
      have hnext := ih hout (front ++ bytes3 x y z w) old hold
      rw [List.append_assoc] at hnext
      simpa [bytes3] using hnext
    all_goals simp [bytes3] at hlength
  | case5 => cases h
  | case6 => cases h
  | case7 => cases h
  | case8 => cases h

/-! ## The decoder -/

theorem length_strip (enc : List UInt8) :
    (strip enc).length = enc.length - enc.countP isSpace := by
  have hsplit := List.length_eq_countP_add_countP isSpace (l := enc)
  rw [strip, ← List.countP_eq_length_filter]
  simp only [Bool.not_eq_true, Bool.decide_eq_false] at hsplit
  omega

theorem count_pad_strip (enc : List UInt8) : (strip enc).count pad = enc.count pad :=
  List.count_filter rfl

/-- With all white space before the padding, the decoder ignores it. -/
theorem base64Decode_eq_decode (fresh : ℕ → UInt8) {enc : List UInt8}
    (hspace : ¬SpaceInPadding enc) : base64Decode fresh enc = decode (strip enc) := by
  by_cases hempty : enc = []
  · subst hempty
    rfl
  have htally := tally_iff enc none enc.length (by simp)
  rw [base64Decode, if_neg hempty]
  by_cases hshape : WellPadded (strip enc)
  · rw [(htally _).2 ⟨⟨hshape, hspace⟩, rfl⟩]
    dsimp only
    rw [← length_strip, ← count_pad_strip]
    by_cases hgroups : 4 ∣ (strip enc).length
    · obtain ⟨out, hout⟩ := Option.isSome_iff_exists.1
        ((decodeGroups_isSome_iff _).2 ⟨hshape, hgroups⟩)
      have hlength := decodeGroups_length hout
      have hnout : 3 * ((strip enc).length / 4) - (strip enc).count pad = out.length := by
        omega
      have hgenerate := generate_decodeGroups hout [] ((List.range out.length).map fresh)
        (by simp)
      rw [List.nil_append, List.nil_append, List.length_nil, ← generate_strip] at hgenerate
      rw [if_neg (by omega), hnout, hgenerate, decode]
      by_cases hstrip : strip enc = []
      · rw [hstrip] at hout
        cases hout
        rw [if_pos List.length_nil, if_pos hstrip]
      · have hne : out.length ≠ 0 := by
          simpa using decodeGroups_ne_nil hout hstrip
        rw [if_neg hne, if_neg hstrip, hout]
    · have hne : strip enc ≠ [] := by
        intro hstrip
        simp [hstrip] at hgroups
      have hnone : decodeGroups (strip enc) = none := by
        rw [← Option.not_isSome_iff_eq_none, decodeGroups_isSome_iff]
        exact fun h => hgroups h.2
      rw [if_pos (by omega), decode, if_neg hne, hnone]
  · have hrefused : tally none enc { nequal := 0, nbytesReal := enc.length } = none :=
      Option.eq_none_iff_forall_ne_some.2 fun t ht => hshape ((htally t).1 ht).1.1
    have hnone : decodeGroups (strip enc) = none := by
      rw [← Option.not_isSome_iff_eq_none, decodeGroups_isSome_iff]
      exact fun h => hshape h.1
    rw [hrefused, decode, hnone, ite_self]

theorem base64Decode_of_spaceInPadding (fresh : ℕ → UInt8) {enc : List UInt8}
    (hspace : SpaceInPadding enc) : base64Decode fresh enc = none := by
  have hrefused : tally none enc { nequal := 0, nbytesReal := enc.length } = none :=
    Option.eq_none_iff_forall_ne_some.2 fun t ht =>
      ((tally_iff enc none enc.length (by simp) t).1 ht).1.2 hspace
  rw [base64Decode, hrefused, ite_self]

/-- `base64_decode` decodes exactly the base64 texts, white space left out, and returns
their bytes, unless a text has white space behind the first padding character. -/
theorem base64Decode_correct_iff (fresh : ℕ → UInt8) (enc : List UInt8) :
    base64Decode fresh enc = decode (strip enc) ↔
      ¬(SpaceInPadding enc ∧ (decode (strip enc)).isSome) := by
  by_cases hspace : SpaceInPadding enc
  · rw [base64Decode_of_spaceInPadding fresh hspace, Option.isSome_iff_ne_none]
    simp [hspace, eq_comm]
  · simp [base64Decode_eq_decode fresh hspace, hspace]

/-- A line break behind the padding: the text `QQ==` is refused with it. -/
theorem base64Decode_line_break :
    base64Decode (fun _ => 0) [81, 81, 61, 61, 10] = none ∧
      decode (strip [81, 81, 61, 61, 10]) = some [65] := by
  decide +kernel

end AuroraLtfs.Text
