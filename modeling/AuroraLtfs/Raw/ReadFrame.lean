import AuroraLtfs.Raw.Access
import AuroraLtfs.Tape.Untouched

/-!
# Reading writes nothing

Whatever the drive answers, a raw read leaves the medium and all of the volume
but its device as they were.
-/

namespace AuroraLtfs.Raw

open AuroraLtfs.Tape
open AuroraLtfs.Index

variable {σ β : Type*}

/-- Only the device has been used, and it has written nothing.  That the medium
has been removed may have been noted. -/
structure Rests (v w : Vol σ β) : Prop where
  rest : w = { v with device := w.device, revalFailed := w.revalFailed }
  device : Untouched v.device w.device

namespace Rests

theorem refl (v : Vol σ β) : Rests v v := ⟨rfl, .refl v.device⟩

theorem trans {u v w : Vol σ β} (huv : Rests u v) (hvw : Rests v w) :
    Rests u w where
  rest := by
    calc
      w = { v with device := w.device, revalFailed := w.revalFailed } := hvw.rest
      _ = { u with device := w.device, revalFailed := w.revalFailed } := by rw [huv.rest]
  device := huv.device.trans hvw.device

theorem tree {v w : Vol σ β} (h : Rests v w) : w.tree = v.tree := by
  rw [h.rest]

theorem withDevice {v : Vol σ β} {d : Device (List β)} (h : Untouched v.device d) :
    Rests v (v.withDevice d) :=
  ⟨rfl, h⟩

end Rests

/-- A relation that locates and reads respect. -/
structure Passive (R : Vol σ β → Vol σ β → Prop) : Prop where
  refl : ∀ v, R v v
  trans : ∀ {u v w}, R u v → R v w → R u w
  seek : ∀ p target v, R v (v.onDevice (tapeSeek p target)).2
  read : ∀ v, R v (v.onDevice tapeRead).2

theorem passive_rests : Passive (Rests : Vol σ β → Vol σ β → Prop) where
  refl := Rests.refl
  trans := Rests.trans
  seek := fun p target v => .withDevice (tapeSeek_untouched p target v.device)
  read := fun v => .withDevice (tapeRead_untouched v.device)

section Loop

variable {R : Vol σ β → Vol σ β → Prop} (hR : Passive R)

/-- The relation that the steps of the read loop respect. -/
def Cursor.Reads (R : Vol σ β → Vol σ β → Prop) (c c' : Cursor σ β) : Prop :=
  R c.raw.vol c'.raw.vol

include hR

theorem Cursor.Reads.trans {a b c : Cursor σ β} (hab : a.Reads R b)
    (hbc : b.Reads R c) : a.Reads R c :=
  hR.trans hab hbc

omit hR in
/-- The loop variables other than the volume do not count. -/
theorem Cursor.Reads.of_raw {a b c : Cursor σ β} (hraw : b.raw = a.raw)
    (h : b.Reads R c) : a.Reads R c := by
  rw [Cursor.Reads, ← hraw]
  exact h

theorem readBlock_reads (bs blockbytes : ℕ) (e : Extent) (c : Cursor σ β) :
    c.Reads R (readBlock bs blockbytes e c).2 := by
  unfold readBlock
  apply Outcome.andThen_rel (R := Cursor.Reads R) (Cursor.Reads.trans hR)
  · exact hR.read c.raw.vol
  · intro read c' _
    dsimp only
    split
    · exact hR.refl _
    · split
      · exact hR.refl _
      · exact hR.refl _

theorem fetchBlock_reads (bs blockbytes : ℕ) (e : Extent) (c : Cursor σ β) :
    c.Reads R (fetchBlock bs blockbytes e c).2 := by
  rw [fetchBlock]
  split
  · split
    · exact hR.refl _
    · exact hR.refl _
  · exact readBlock_reads hR bs blockbytes e c

theorem readBlocks_reads (bs count lastOff : ℕ) (e : Extent) (fuel : ℕ)
    (c : Cursor σ β) : c.Reads R (readBlocks bs count lastOff e fuel c).2 := by
  induction fuel generalizing c with
  | zero => exact hR.refl _
  | succ fuel ih =>
    rw [readBlocks]
    split
    · apply Outcome.andThen_rel (R := Cursor.Reads R) (Cursor.Reads.trans hR)
      · apply Cursor.Reads.of_raw _ (fetchBlock_reads hR bs _ e _)
        rfl
      · intro _ c' _
        apply Cursor.Reads.of_raw _ (ih _)
        rfl
    · exact hR.refl _

theorem readExtent_reads (bs count lastOff : ℕ) (e : Extent) (c : Cursor σ β) :
    c.Reads R (readExtent bs count lastOff e c).2 := by
  unfold readExtent
  apply Outcome.andThen_rel (R := Cursor.Reads R) (Cursor.Reads.trans hR)
  · split
    · exact hR.seek _ _ (enterExtent bs e c).raw.vol
    · exact hR.refl _
  · intro _ c' _
    exact readBlocks_reads hR bs count lastOff e count c'

variable [Zero β]

theorem readExtents_reads (bs count lastOff : ℕ) (es : List Extent) (c : Cursor σ β) :
    c.Reads R (readExtents bs count lastOff es c).2 := by
  induction es generalizing c with
  | nil => exact hR.refl _
  | cons e es ih =>
    rw [readExtents]
    split
    · exact hR.refl _
    · split
      · exact hR.refl _
      · dsimp only
        split
        · apply Outcome.andThen_rel (R := Cursor.Reads R) (Cursor.Reads.trans hR)
          · exact readExtent_reads hR bs count lastOff e (c.fill _)
          · intro _ c' _
            exact ih c'
        · exact ih (c.fill _)

/-- `ltfs_fsraw_read` leaves the dentry alone, and locates and reads are all it
does to the volume. -/
theorem ltfsFsrawRead_reads (bs offset count : ℕ) (s : RawVol σ β × Dentry) :
    R s.1.vol (ltfsFsrawRead bs offset count s).2.1.vol ∧
      (ltfsFsrawRead bs offset count s).2.2 = s.2 := by
  rw [ltfsFsrawRead]
  split
  · exact ⟨hR.refl _, rfl⟩
  · dsimp only
    obtain ⟨start, hstart⟩ : ∃ start : Cursor σ β, start =
        { raw := s.1
          curpos := s.1.vol.device.position
          seekpos := s.1.vol.device.position
          firstbyte := 0
          lastbyte := 0
          nextOff := offset
          out := [] } := ⟨_, rfl⟩
    have hreads := readExtents_reads hR bs count (u64 (offset + count)) s.2.extents start
    rw [← hstart]
    have hraw : start.raw = s.1 := by rw [hstart]
    rw [Cursor.Reads, hraw] at hreads
    generalize readExtents bs count (u64 (offset + count)) s.2.extents start = r at hreads ⊢
    obtain ⟨ret, c⟩ := r
    cases ret with
    | error e => exact ⟨hreads, rfl⟩
    | ok _ => exact ⟨hreads, rfl⟩

end Loop

/-- `ltfs_fsraw_read` uses the device and nothing else of the volume. -/
theorem ltfsFsrawRead_rests [Zero β] (bs offset count : ℕ) (s : RawVol σ β × Dentry) :
    Rests s.1.vol (ltfsFsrawRead bs offset count s).2.1.vol ∧
      (ltfsFsrawRead bs offset count s).2.2 = s.2 :=
  ltfsFsrawRead_reads passive_rests bs offset count s

end AuroraLtfs.Raw
