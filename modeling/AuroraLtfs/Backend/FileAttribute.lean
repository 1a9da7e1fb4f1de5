import Mathlib

/-!
# The cartridge memory of the file backend

`filedebug_tc.c` keeps each attribute of the cartridge memory in a file of its own, named
after the partition and the id.  A buffer of several attribute records is written record
by record, but into each of the files goes the whole buffer
(`filedebugWriteAttribute_records`).
-/

namespace AuroraLtfs.Backend

/-- The files `attr_<part>_<id>` and what is in them. -/
abbrev AttrFiles := ℕ → ℕ → Option (List UInt8)

/-- `ltfs_betou16` -/
def betou16 (buf : List UInt8) : ℕ :=
  (buf.getD 0 0).toNat * 256 + (buf.getD 1 0).toNat

/-- What `filedebug_read_attribute` puts into a buffer of `size` bytes, unless there is no
such attribute. -/
def filedebugReadAttribute (part id size : ℕ) (files : AttrFiles) : Option (List UInt8) :=
  (files part id).map (·.take size)

/-- The loop of `filedebug_write_attribute` over what is left of the buffer; the rounds are
bounded by its length.  `writable` tells whether the host lets the file of an id be
written.  The host then takes the whole buffer: a `write` that comes back short, which the
source lets pass as well, is not modelled. -/
def writeRecords (writable : ℕ → Bool) (part : ℕ) (buf : List UInt8) :
    ℕ → List UInt8 → AttrFiles → Bool × AttrFiles
  | 0, _, files => (true, files)
  | fuel + 1, rest, files =>
    if rest = [] then (true, files)
    else
      let id := betou16 rest
      if writable id then
        writeRecords writable part buf fuel (rest.drop (betou16 (rest.drop 3) + 5))
          (Function.update files part (Function.update (files part) id (some buf)))
      else (false, files)

/-- `false` is `-EDEV_CM_PERM`. -/
def filedebugWriteAttribute (writable : ℕ → Bool) (part : ℕ) (buf : List UInt8)
    (files : AttrFiles) : Bool × AttrFiles :=
  writeRecords writable part buf buf.length buf files

/-! ## Records -/

/-- An attribute record: id, format, and as much data as two bytes can tell. -/
structure AttrRecord where
  id : ℕ
  format : UInt8
  data : List UInt8
  id_lt : id < 2 ^ 16
  length_lt : data.length < 2 ^ 16

def u16tobe (n : ℕ) : List UInt8 := [UInt8.ofNat (n / 256), UInt8.ofNat (n % 256)]

def AttrRecord.bytes (r : AttrRecord) : List UInt8 :=
  u16tobe r.id ++ r.format :: (u16tobe r.data.length ++ r.data)

theorem betou16_u16tobe {n : ℕ} (h : n < 2 ^ 16) (rest : List UInt8) :
    betou16 (u16tobe n ++ rest) = n := by
  simp only [betou16, u16tobe, List.cons_append, List.getD_cons_zero, List.getD_cons_succ,
    UInt8.toNat_ofNat']
  omega

section Records

variable {writable : ℕ → Bool} {part : ℕ} {files : AttrFiles}

/-- The whole buffer goes into the file of every record. -/
theorem writeRecords_eq (buf : List UInt8) (records : List AttrRecord) {fuel : ℕ}
    (hfuel : records.length ≤ fuel)
    (hok : (writeRecords writable part buf fuel
      (records.flatMap AttrRecord.bytes) files).1 = true) (p id : ℕ) :
    (writeRecords writable part buf fuel (records.flatMap AttrRecord.bytes) files).2 p id =
      if p = part ∧ id ∈ records.map AttrRecord.id then some buf else files p id := by
  induction records generalizing fuel files with
  | nil =>
    cases fuel <;> simp [writeRecords]
  | cons r records ih =>
    obtain ⟨fuel, rfl⟩ : ∃ n, fuel = n + 1 := ⟨fuel - 1, by simp at hfuel; omega⟩
    have hid : betou16 (r.bytes ++ records.flatMap AttrRecord.bytes) = r.id := by
      rw [AttrRecord.bytes, List.append_assoc, betou16_u16tobe r.id_lt]
    have hsize : betou16 ((r.bytes ++ records.flatMap AttrRecord.bytes).drop 3) =
        r.data.length := by
      have hdrop : (r.bytes ++ records.flatMap AttrRecord.bytes).drop 3 =
          u16tobe r.data.length ++ (r.data ++ records.flatMap AttrRecord.bytes) := by
        simp [AttrRecord.bytes, u16tobe]
      rw [hdrop, betou16_u16tobe r.length_lt]
    have hrest : (r.bytes ++ records.flatMap AttrRecord.bytes).drop (r.data.length + 5) =
        records.flatMap AttrRecord.bytes := by
      apply List.drop_left'
      simp [AttrRecord.bytes, u16tobe]
    have hne : r.bytes ++ records.flatMap AttrRecord.bytes ≠ [] := by
      simp [AttrRecord.bytes, u16tobe]
    rw [List.flatMap_cons, writeRecords, if_neg hne, hid, hsize, hrest] at hok ⊢
    dsimp only at hok ⊢
    by_cases hwritable : writable r.id = true
    · rw [if_pos hwritable] at hok ⊢
      rw [ih (by simpa using hfuel) hok]
      by_cases hp : p = part
      · subst hp
        by_cases hlast : id = r.id <;> simp [hlast]
      · simp [hp]
    · simp [hwritable] at hok

theorem AttrRecord.length_bytes (r : AttrRecord) : r.bytes.length = r.data.length + 5 := by
  simp [bytes, u16tobe]

theorem length_le_flatMap (records : List AttrRecord) :
    records.length ≤ (records.flatMap AttrRecord.bytes).length := by
  induction records with
  | nil => rfl
  | cons r records ih =>
    rw [List.flatMap_cons, List.length_append, List.length_cons, r.length_bytes]
    omega

/-- The file of every record of the buffer holds the buffer from its start. -/
theorem filedebugReadAttribute_written (records : List AttrRecord)
    (hok : (filedebugWriteAttribute writable part (records.flatMap AttrRecord.bytes)
      files).1 = true) (p id size : ℕ) :
    filedebugReadAttribute p id size (filedebugWriteAttribute writable part
      (records.flatMap AttrRecord.bytes) files).2 =
      if p = part ∧ id ∈ records.map AttrRecord.id
      then some ((records.flatMap AttrRecord.bytes).take size)
      else filedebugReadAttribute p id size files := by
  rw [filedebugReadAttribute, filedebugWriteAttribute,
    writeRecords_eq _ records (length_le_flatMap records) hok]
  split_ifs <;> rfl

/-- After a success every attribute of another partition or with another id is as it was;
those in the buffer read as their records exactly if there is one at most. -/
theorem filedebugWriteAttribute_records (records : List AttrRecord)
    (hok : (filedebugWriteAttribute writable part (records.flatMap AttrRecord.bytes)
      files).1 = true) :
    (∀ p id size, p ≠ part ∨ id ∉ records.map AttrRecord.id →
      filedebugReadAttribute p id size (filedebugWriteAttribute writable part
        (records.flatMap AttrRecord.bytes) files).2 = filedebugReadAttribute p id size files) ∧
    ((∀ r ∈ records, ∀ size,
      filedebugReadAttribute part r.id size (filedebugWriteAttribute writable part
        (records.flatMap AttrRecord.bytes) files).2 = some (r.bytes.take size)) ↔
      records.length ≤ 1) := by
  have hread := filedebugReadAttribute_written records hok
  constructor
  · intro p id size hother
    rw [hread, if_neg (by tauto)]
  have hown : ∀ r ∈ records, ∀ size, filedebugReadAttribute part r.id size
      (filedebugWriteAttribute writable part (records.flatMap AttrRecord.bytes) files).2 =
      some ((records.flatMap AttrRecord.bytes).take size) := by
    intro r hr size
    rw [hread, if_pos ⟨rfl, List.mem_map_of_mem hr⟩]
  match records with
  | [] => simp
  | [r] =>
    refine ⟨fun _ => le_rfl, fun _ x hx size => ?_⟩
    rw [hown x hx size, List.mem_singleton.1 hx, List.flatMap_singleton]
  | r :: next :: rest =>
    refine ⟨fun hall => ?_, fun hone => by simp at hone⟩
    -- read as far as the buffer goes, the first file is longer than its record
    have hfirst := hall r (by simp) ((r :: next :: rest).flatMap AttrRecord.bytes).length
    rw [hown r (by simp), List.take_length, Option.some.injEq] at hfirst
    have hlength := congrArg List.length hfirst
    rw [List.length_take, List.flatMap_cons, List.flatMap_cons, List.length_append,
      List.length_append, r.length_bytes, next.length_bytes] at hlength
    omega

end Records

/-- A barcode of one byte. -/
def barcodeRecord : AttrRecord := ⟨0x0806, 1, [0x41], by norm_num, by norm_num⟩

/-- A lock state. -/
def lockRecord : AttrRecord := ⟨0x1623, 0, [0x80], by norm_num, by norm_num⟩

theorem filedebugWriteAttribute_one :
    filedebugReadAttribute 0 0x1623 6 (filedebugWriteAttribute (fun _ => true) 0
      ([lockRecord].flatMap AttrRecord.bytes) fun _ _ => none).2 = some lockRecord.bytes :=
  (filedebugWriteAttribute_records [lockRecord] (by decide)).2.2 le_rfl lockRecord
    (by simp) 6

/-- Two records are written, and the lock state reads as the barcode. -/
theorem filedebugWriteAttribute_two :
    (filedebugWriteAttribute (fun _ => true) 0 (barcodeRecord.bytes ++ lockRecord.bytes)
      fun _ _ => none).1 = true ∧
    filedebugReadAttribute 0 0x1623 6 (filedebugWriteAttribute (fun _ => true) 0
      (barcodeRecord.bytes ++ lockRecord.bytes) fun _ _ => none).2 =
        some barcodeRecord.bytes := by
  decide

end AuroraLtfs.Backend
