import AuroraLtfs.Mam.Attribute

/-!
# The medium label

The medium label in the cartridge memory is the volume name, cut behind its last whole
character if it is too long.  `set_tape_attribute` takes it from the name in the index;
when `ltfs.volumeName` is set, `update_tape_attribute` cuts the stored name with the length
of the text that was given.  The stored name is normalised and may be longer or shorter,
so that the two differ for some names (`setVolumeName_label_iff`).
-/

namespace AuroraLtfs.Mam

open Utf8 (WellFormed)

/-- A name as `pathname_format` makes it, up to its NUL. -/
structure VolumeName where
  bytes : List UInt8
  wellFormed : WellFormed bytes
  no_nul : 0 ∉ bytes

/-- The volume with the name in its index. -/
structure NamedVolume where
  volume : Volume
  volumeName : Option VolumeName

/-- The medium label of `set_tape_attribute`; `behind` lies behind the NUL of the name. -/
def setTapeAttributeLabel (behind : List UInt8) : Option VolumeName → List UInt8
  | none => []
  | some name => name.bytes.take (labelSize (name.bytes ++ 0 :: behind) name.bytes.length)

/-- `_xattr_set_virtual` for `ltfs.volumeName` on the root.  `format` is
`pathname_format`, `behind` lies behind the NUL of the new name, and `write` is the answer
of the drive. -/
def setVolumeName (format : List UInt8 → Except MamError VolumeName)
    (write : Option MamError) (behind value : List UInt8) (v : NamedVolume) :
    Except MamError Unit × NamedVolume :=
  if value = [] then
    let ret := updateTapeAttribute write (.userMediumLabel none 0) v.volume
    (ret.1, ⟨ret.2, none⟩)
  else match format value with
    | .error e => (.error e, v)
    | .ok name =>
      -- the length is that of the text given, not that of the name
      let ret := updateTapeAttribute write
        (.userMediumLabel (some name.bytes) value.length)
        { v.volume with memory := name.bytes ++ 0 :: behind }
      (ret.1, ⟨ret.2, some name⟩)

/-! ## The truncation -/

section Truncation

variable {text bytes rest tail : List UInt8} {code k : ℕ}

theorem u8Next_character (hnext : Utf8.next text = some (code, bytes, rest)) :
    u8Next (bytes ++ tail) = bytes.length := by
  rw [u8Next.eq_def, Utf8.next_append hnext tail]

theorem trail_bounds {b : UInt8} (h : Utf8.isTrail b) : 0x80 ≤ b.toNat ∧ b.toNat < 0xC0 := by
  simpa [Utf8.isTrail, UInt8.le_iff_toNat_le, UInt8.lt_iff_toNat_lt] using h

/-- A character that is cut off is gone over to the end of the buffer. -/
theorem u8Next_take (hnext : Utf8.next text = some (code, bytes, rest)) (hpos : 0 < k)
    (hk : k < bytes.length) : u8Next (bytes.take k) = k := by
  rw [u8Next.eq_def, Utf8.next_take hnext hk]
  revert hnext
  fun_cases Utf8.next text with
  | case2 a rest' ha =>
    rintro ⟨⟩
    simp only [List.length_singleton] at hk
    omega
  | case3 a ha hlead b rest' hb =>
    rintro ⟨⟩
    obtain rfl : k = 1 := by
      simp only [List.length_cons, List.length_nil] at hk
      omega
    rfl
  | case6 a ha hlead hlead' b c rest' code' htrail =>
    intro h
    obtain ⟨rfl, rfl, rfl⟩ : code' = code ∧ _ = bytes ∧ rest' = rest := by
      simpa using h
    have hsecond := trail_bounds htrail.1
    -- the second byte alone tells an overlong form and a surrogate
    have hlow : ¬(a = 0xE0 ∧ b < 0xA0) := by
      rintro ⟨rfl, hb⟩
      have hb : b.toNat < 0xA0 := hb
      have : 0x800 ≤ (0 * 64 + b.toNat % 64) * 64 + c.toNat % 64 := htrail.2.2.1
      omega
    have hhigh : ¬(a = 0xED ∧ 0xA0 ≤ b) := by
      rintro ⟨rfl, hb⟩
      have hb : 0xA0 ≤ b.toNat := hb
      have : ¬(0xD800 ≤ (13 * 64 + b.toNat % 64) * 64 + c.toNat % 64 ∧
        (13 * 64 + b.toNat % 64) * 64 + c.toNat % 64 ≤ 0xDFFF) := htrail.2.2.2
      omega
    obtain rfl | rfl : k = 1 ∨ k = 2 := by
      simp only [List.length_cons, List.length_nil] at hk
      omega
    · rfl
    · exact (if_pos hlead').trans (if_pos ⟨htrail.1, hlow, hhigh⟩)
  | case9 a ha hlead hlead' hlead'' b c d rest' code' htrail =>
    intro h
    obtain ⟨rfl, rfl, rfl⟩ : code' = code ∧ _ = bytes ∧ rest' = rest := by
      simpa using h
    have hsecond := trail_bounds htrail.2.1
    have hlow : ¬(a = 0xF0 ∧ b < 0x90) := by
      rintro ⟨rfl, hb⟩
      have hb : b.toNat < 0x90 := hb
      have : 0x10000 ≤ ((0 * 64 + b.toNat % 64) * 64 + c.toNat % 64) * 64 +
        d.toNat % 64 := htrail.2.2.2.2.1
      omega
    have hhigh : ¬(a = 0xF4 ∧ 0x90 ≤ b) := by
      rintro ⟨rfl, hb⟩
      have hb : 0x90 ≤ b.toNat := hb
      have : ((4 * 64 + b.toNat % 64) * 64 + c.toNat % 64) * 64 + d.toNat % 64 ≤
        0x10FFFF := htrail.2.2.2.2.2
      omega
    have hfour : 0xF0 ≤ a ∧ a < 0xF5 ∧ Utf8.isTrail b ∧ ¬(a = 0xF0 ∧ b < 0x90) ∧
        ¬(a = 0xF4 ∧ 0x90 ≤ b) := ⟨hlead'', htrail.1, htrail.2.1, hlow, hhigh⟩
    obtain rfl | rfl | rfl : k = 1 ∨ k = 2 ∨ k = 3 := by
      simp only [List.length_cons, List.length_nil] at hk
      omega
    · rfl
    · exact (if_neg hlead').trans (if_pos hfour)
    · exact ((if_neg hlead').trans (if_pos hfour)).trans (if_pos htrail.2.2.1)
  | _ =>
    intro h
    cases h

/-- The loop never ends in front of where it stands. -/
theorem le_truncateLoop (name : List UInt8) (maxSize fuel : ℕ) {size reSize : ℕ}
    (h : reSize ≤ size) : reSize ≤ truncateLoop name maxSize fuel size reSize := by
  induction fuel generalizing size reSize with
  | zero => exact le_rfl
  | succ fuel ih =>
    rw [truncateLoop]
    split
    · exact h.trans (ih (Nat.le_add_right _ _))
    · exact le_rfl

theorem truncateLoop_end (name : List UInt8) (fuel : ℕ) {maxSize size reSize : ℕ}
    (h : maxSize ≤ size) : truncateLoop name maxSize fuel size reSize = reSize := by
  cases fuel with
  | zero => rfl
  | succ fuel => rw [truncateLoop, if_neg (by omega)]

/-- The end of the last character that fits below `maxSize`. -/
def lastBoundary (name : List UInt8) (maxSize : ℕ) : ℕ :=
  Nat.findGreatest (fun k => WellFormed (name.take k)) (maxSize - 1)

/-- In front of a character that does not fit. -/
theorem lastBoundary_eq {front : List UInt8} (hfront : WellFormed front)
    (hnext : Utf8.next text = some (code, bytes, rest)) {maxSize : ℕ}
    (hlt : front.length < maxSize) (hover : maxSize ≤ front.length + bytes.length) :
    lastBoundary (front ++ (bytes ++ rest)) maxSize = front.length := by
  rw [lastBoundary, Nat.findGreatest_eq_iff]
  refine ⟨by omega, fun _ => by rwa [List.take_left], fun k hk hle => ?_⟩
  rw [List.take_append, List.take_of_length_le hk.le, hfront.append_iff,
    List.take_append_of_le_length (by omega)]
  exact Utf8.not_wellFormed_take hnext (by omega) (by omega)

/-- The loop stands behind the whole characters `front` of a name. -/
theorem truncateLoop_spec (tail : List UInt8) {front back : List UInt8}
    (hfront : WellFormed front) (hback : WellFormed back) {maxSize fuel reSize : ℕ}
    (hlt : front.length < maxSize) (hfuel : maxSize < fuel + front.length) :
    if (front ++ back).length < maxSize then
      (front ++ back).length ≤
        truncateLoop (front ++ back ++ tail) maxSize fuel front.length reSize
    else truncateLoop (front ++ back ++ tail) maxSize fuel front.length reSize =
      lastBoundary (front ++ back) maxSize := by
  induction hback generalizing front fuel reSize with
  | nil =>
    obtain ⟨fuel, rfl⟩ : ∃ n, fuel = n + 1 := ⟨fuel - 1, by omega⟩
    rw [truncateLoop, if_pos hlt, List.append_nil, if_pos hlt]
    exact le_truncateLoop _ _ _ (Nat.le_add_right _ _)
  | @cons back bytes rest code hnext hrest ih =>
    obtain ⟨fuel, rfl⟩ : ∃ n, fuel = n + 1 := ⟨fuel - 1, by omega⟩
    obtain rfl := (Utf8.next_eq_some hnext).1
    have hpos := (Utf8.next_eq_some hnext).2.length_pos
    have hbuffer : ((front ++ (bytes ++ rest) ++ tail).take maxSize).drop front.length =
        (bytes ++ (rest ++ tail)).take (maxSize - front.length) := by
      simp [List.drop_take]
    rw [truncateLoop, if_pos hlt, hbuffer]
    by_cases hfits : front.length + bytes.length < maxSize
    · have hchars : WellFormed (front ++ bytes) := by
        rw [hfront.append_iff, ← List.append_nil bytes, Utf8.wellFormed_character_iff hnext]
        exact .nil
      have hstep := @ih (front ++ bytes) hchars fuel front.length
        (by rw [List.length_append]; omega) (by rw [List.length_append]; omega)
      rw [List.take_append, List.take_of_length_le (by omega), u8Next_character hnext]
      simpa only [List.append_assoc, List.length_append] using hstep
    · have hend : u8Next ((bytes ++ (rest ++ tail)).take (maxSize - front.length)) =
          maxSize - front.length := by
        rw [List.take_append_of_le_length (by omega)]
        rcases Nat.lt_or_ge (maxSize - front.length) bytes.length with hcut | hcut
        · exact u8Next_take hnext (by omega) hcut
        · rw [List.take_of_length_le hcut, ← List.append_nil bytes, u8Next_character hnext]
          omega
      rw [hend, truncateLoop_end _ _ (by omega), lastBoundary_eq hfront hnext hlt (by omega),
        if_neg (by rw [List.length_append, List.length_append]; omega)]

/-- The whole loop, over a name and what lies behind it. -/
theorem truncateLoop_eq {name : List UInt8} (hname : WellFormed name) (tail : List UInt8)
    (maxSize : ℕ) (hpos : 0 < maxSize) :
    if name.length < maxSize then
      name.length ≤ truncateLoop (name ++ tail) maxSize (maxSize + 1) 0 0
    else truncateLoop (name ++ tail) maxSize (maxSize + 1) 0 0 =
      lastBoundary name maxSize :=
  truncateLoop_spec tail .nil hname hpos (by simp)

end Truncation

/-! ## Labels -/

/-- The label is made of the first characters of the name, and of all if they fit. -/
structure IsLabel (name label : List UInt8) : Prop where
  front : label <+: name
  characters : WellFormed label
  fits : label.length ≤ userMediumLabelSize - 1
  whole : name.length ≤ userMediumLabelSize - 1 → label = name

section Labels

variable {name : List UInt8} {size : ℕ}

/-- A name that fits is taken as a whole, whatever is read behind it. -/
theorem take_labelSize (hname : WellFormed name) (behind : List UInt8)
    (hfits : name.length ≤ userMediumLabelSize - 1) (hsize : name.length ≤ size) :
    name.take (labelSize (name ++ behind) size) = name := by
  apply List.take_of_length_le
  rw [labelSize]
  split
  · rw [uGetTruncateSize]
    split
    · have hloop := truncateLoop_eq hname behind userMediumLabelSize (by decide)
      rwa [if_pos (Nat.lt_of_le_pred (by decide) hfits)] at hloop
    · exact hfits
  · exact hsize

theorem labelSize_of_long (hname : WellFormed name) (behind : List UInt8)
    (hlong : userMediumLabelSize ≤ name.length) (hsize : userMediumLabelSize - 1 < size) :
    labelSize (name ++ behind) size =
      if WellFormed ((name ++ behind).take size) then lastBoundary name userMediumLabelSize
      else userMediumLabelSize - 1 := by
  have hloop := truncateLoop_eq hname behind userMediumLabelSize (by decide)
  rw [if_neg (Nat.not_lt.2 hlong)] at hloop
  rw [labelSize, if_pos hsize, uGetTruncateSize, hloop]
  by_cases hvalid : WellFormed ((name ++ behind).take size)
  · rw [if_pos (Utf8.valid_iff.2 hvalid), if_pos hvalid, Option.getD_some]
  · rw [if_neg (fun h => hvalid (Utf8.valid_iff.1 h)), if_neg hvalid, Option.getD_none]

theorem lastBoundary_le (name : List UInt8) (maxSize : ℕ) :
    lastBoundary name maxSize ≤ maxSize - 1 :=
  Nat.findGreatest_le _

theorem isLabel_take_lastBoundary (hlong : userMediumLabelSize ≤ name.length) :
    IsLabel name (name.take (lastBoundary name userMediumLabelSize)) where
  front := List.take_prefix _ _
  characters := Nat.findGreatest_spec (P := fun k => WellFormed (name.take k))
    (Nat.zero_le _) (by rw [List.take_zero]; exact .nil)
  fits := (List.length_take_le _ _).trans (lastBoundary_le _ _)
  whole h := absurd (hlong.trans h) (by decide)

theorem setTapeAttributeLabel_of_fits (behind : List UInt8) {name : VolumeName}
    (hfits : name.bytes.length ≤ userMediumLabelSize - 1) :
    setTapeAttributeLabel behind (some name) = name.bytes :=
  take_labelSize name.wellFormed _ hfits le_rfl

theorem setTapeAttributeLabel_of_long (behind : List UInt8) {name : VolumeName}
    (hlong : userMediumLabelSize ≤ name.bytes.length) :
    setTapeAttributeLabel behind (some name) =
      name.bytes.take (lastBoundary name.bytes userMediumLabelSize) := by
  rw [setTapeAttributeLabel, labelSize_of_long name.wellFormed _ hlong
    (Nat.lt_of_lt_of_le (by decide) hlong), List.take_left, if_pos name.wellFormed]

/-- The label from the index is always right. -/
theorem setTapeAttributeLabel_isLabel (behind : List UInt8) (name : VolumeName) :
    IsLabel name.bytes (setTapeAttributeLabel behind (some name)) := by
  rcases Nat.lt_or_ge name.bytes.length userMediumLabelSize with hfits | hlong
  · rw [setTapeAttributeLabel_of_fits behind (Nat.le_pred_of_lt hfits)]
    exact ⟨List.prefix_rfl, name.wellFormed, Nat.le_pred_of_lt hfits, fun _ => rfl⟩
  · rw [setTapeAttributeLabel_of_long behind hlong]
    exact isLabel_take_lastBoundary hlong

/-- How much of the name the length of the text given lets through. -/
def LabelKept (given : ℕ) (name behind : List UInt8) : Prop :=
  if given ≤ userMediumLabelSize - 1 then
    name.length ≤ given ∨
      userMediumLabelSize ≤ name.length ∧ given = lastBoundary name userMediumLabelSize
  else
    name.length ≤ userMediumLabelSize - 1 ∨
      lastBoundary name userMediumLabelSize = userMediumLabelSize - 1 ∨
      WellFormed ((name ++ 0 :: behind).take given)

/-- The label for a text of `given` bytes against the one from the index. -/
theorem take_labelSize_eq_iff (behind behind' : List UInt8) (name : VolumeName)
    (given : ℕ) :
    name.bytes.take (labelSize (name.bytes ++ 0 :: behind) given) =
        setTapeAttributeLabel behind' (some name) ↔
      LabelKept given name.bytes behind := by
  have hboundary := lastBoundary_le name.bytes userMediumLabelSize
  have hsize : userMediumLabelSize = 160 := rfl
  rw [LabelKept]
  rcases Nat.lt_or_ge name.bytes.length userMediumLabelSize with hfits | hlong
  · rw [setTapeAttributeLabel_of_fits behind' (Nat.le_pred_of_lt hfits)]
    split_ifs with hgiven
    · rw [labelSize, if_neg (Nat.not_lt.2 hgiven), List.take_eq_self_iff]
      omega
    · exact iff_of_true
        (take_labelSize name.wellFormed _ (Nat.le_pred_of_lt hfits) (by omega))
        (.inl (Nat.le_pred_of_lt hfits))
  · rw [setTapeAttributeLabel_of_long behind' hlong, List.take_eq_take_iff]
    split_ifs with hgiven
    · rw [labelSize, if_neg (Nat.not_lt.2 hgiven)]
      omega
    · rw [labelSize_of_long name.wellFormed _ hlong (by omega)]
      split_ifs with hvalid
      · exact iff_of_true rfl (.inr (.inr hvalid))
      · simp only [hvalid, or_false]
        omega

end Labels

/-- The label that is put in the cartridge memory is the one from the index exactly if the
length of the text given is no hindrance. -/
theorem setVolumeName_label_iff (format : List UInt8 → Except MamError VolumeName)
    (behind behind' value : List UInt8) (v : NamedVolume) {name : VolumeName}
    (hvalue : value ≠ []) (hformat : format value = .ok name) :
    let w := (setVolumeName format none behind value v).2
    (w.volume.cartridge.mediumLabel = setTapeAttributeLabel behind' w.volumeName ∧
        IsLabel name.bytes w.volume.cartridge.mediumLabel ∧
        IsLabel name.bytes (setTapeAttributeLabel behind' w.volumeName)) ↔
      LabelKept value.length name.bytes behind := by
  have hcomputed := setTapeAttributeLabel_isLabel behind' name
  rw [setVolumeName, if_neg hvalue, hformat, ← take_labelSize_eq_iff behind behind' name]
  constructor
  · exact fun h => h.1
  · intro h
    refine ⟨h, ?_, hcomputed⟩
    rw [← h] at hcomputed
    exact hcomputed

/-! ## Two names -/

/-- The letter U+0958, normalised to U+0915 and U+093C. -/
def qa : VolumeName where
  bytes := [0xE0, 0xA4, 0x95, 0xE0, 0xA4, 0xBC]
  wellFormed := by decide
  no_nul := by decide

/-- 158 letters, and one of two bytes that the label has no room for. -/
def straddling : VolumeName where
  bytes := List.replicate 158 0x41 ++ [0xC3, 0xA9]
  wellFormed := by decide +kernel
  no_nul := by decide +kernel

def unnamed : NamedVolume := ⟨⟨[], ⟨[], [], 0, []⟩, ⟨[], [], 0, []⟩⟩, none⟩

/-- A name that is stored as it was given, and cut in front of its last letter. -/
theorem setVolumeName_label_straddling :
    let w := (setVolumeName (fun _ => .ok straddling) none [] straddling.bytes unnamed).2
    w.volume.cartridge.mediumLabel = List.replicate 158 0x41 ∧
      w.volume.cartridge.mediumLabel = setTapeAttributeLabel [] w.volumeName ∧
      IsLabel straddling.bytes w.volume.cartridge.mediumLabel := by
  have hboth := (setVolumeName_label_iff (fun _ => .ok straddling) [] [] straddling.bytes
    unnamed (by decide +kernel) rfl).2 (by
      rw [LabelKept, if_neg (by decide +kernel)]
      exact .inr (.inr (by decide +kernel)))
  exact ⟨by decide +kernel, hboth.1, hboth.2.1⟩

/-- Of six bytes stored for the three that were given, three become the label. -/
theorem setVolumeName_cuts_normalised :
    (setVolumeName (fun _ => .ok qa) none [] [0xE0, 0xA5, 0x98] unnamed).1 = .ok () ∧
    (setVolumeName (fun _ => .ok qa) none [] [0xE0, 0xA5, 0x98]
      unnamed).2.volume.cartridge.mediumLabel = [0xE0, 0xA4, 0x95] ∧
    setTapeAttributeLabel [] (some qa) = [0xE0, 0xA4, 0x95, 0xE0, 0xA4, 0xBC] ∧
    ¬IsLabel qa.bytes (setVolumeName (fun _ => .ok qa) none [] [0xE0, 0xA5, 0x98]
      unnamed).2.volume.cartridge.mediumLabel :=
  ⟨rfl, rfl, rfl, fun h => absurd (h.whole (by decide)) (by decide)⟩

end AuroraLtfs.Mam
