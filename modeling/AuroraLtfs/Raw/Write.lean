import AuroraLtfs.Index.Success
import AuroraLtfs.Raw.Access

/-!
# What a data write puts on the tape

A data write keeps every record below the append positions, whether or not it
succeeds.  When it succeeds the buffer lies in consecutive blocks from the
block number it returns.
-/

namespace AuroraLtfs.Raw

open AuroraLtfs.Tape
open AuroraLtfs.Index

variable {σ β : Type*} {p : Part}

/-- The buffer lies in blocks of `bs` bytes from block `start` on, below the
append position. -/
def Holds (bs : ℕ) (p : Part) (start : ℕ) (bytes : List β)
    (d : Device (List β)) : Prop :=
  ∀ q, q * bs < bytes.length → start + q < d.appendEnd p ∧
    (d.medium p)[start + q]? = some (.block ((bytes.drop (q * bs)).take bs))

/-- A first block and the blocks behind it. -/
theorem Holds.cons {bs start : ℕ} {bytes : List β} {d : Device (List β)}
    (hend : start < d.appendEnd p)
    (hblock : (d.medium p)[start]? = some (.block (bytes.take bs)))
    (hrest : Holds bs p (start + 1) (bytes.drop bs) d) : Holds bs p start bytes d := by
  intro q hq
  cases q with
  | zero => simpa using ⟨hend, hblock⟩
  | succ q =>
    have hlater := hrest q (by
      rw [List.length_drop]
      rw [Nat.succ_mul] at hq
      omega)
    rw [List.drop_drop] at hlater
    rw [Nat.succ_mul, Nat.add_comm (q * bs) bs, Nat.add_comm q 1, ← Nat.add_assoc]
    exact hlater

/-- What is known of a volume after a call that writes `bytes` from block
`start` of partition `p` on. -/
def WritesData (bs : ℕ) (p : Part) (start : ℕ) (bytes : List β) (v : Vol σ β)
    (r : TapeCall (Vol σ β) Unit) : Prop :=
  v.device.Grows r.2.device ∧
    (r.1 = .ok () → r.2.device.AtAppend p ∧ Holds bs p start bytes r.2.device)

theorem writeBlocks_spec {bs : ℕ} (hbs : 0 < bs) (fuel : ℕ) (bytes : List β)
    (hfuel : bytes.length ≤ fuel) {v : Vol σ β} (hsane : v.device.Sane)
    (hat : v.device.AtAppend p) :
    WritesData bs p (v.device.appendEnd p) bytes v
      (writeBlocks bs fuel bytes v) := by
  induction fuel generalizing bytes v with
  | zero =>
    obtain rfl : bytes = [] := List.length_eq_zero_iff.1 (by omega)
    exact ⟨.refl hsane, fun _ => ⟨hat, fun q hq => by simp at hq⟩⟩
  | succ fuel ih =>
    rw [writeBlocks]
    by_cases hempty : bytes = []
    · subst hempty
      exact ⟨.refl hsane, fun _ => ⟨hat, fun q hq => by simp at hq⟩⟩
    rw [if_neg hempty]
    have hpositive := List.length_pos_iff.2 hempty
    have hgrows := (tapeWrite_writes hsane hat (bytes.take bs) false false).grows
    apply Outcome.andThen_elim (motive := fun r : TapeCall (Vol σ β) Unit =>
      WritesData bs p (v.device.appendEnd p) bytes v r)
    · intro e w hw
      obtain ⟨d, hd, rfl⟩ := Outcome.within_eq hw
      rw [hd] at hgrows
      exact ⟨hgrows, fun h => by simp at h⟩
    · intro _ w hw
      obtain ⟨d, hd, rfl⟩ := Outcome.within_eq hw
      obtain ⟨hat', hend, hblock⟩ := tapeWrite_eq_ok hsane hat hd
      rw [hd] at hgrows
      obtain ⟨hrest, hok⟩ := ih (v := v.withDevice d)
        (bytes.drop bs) (by rw [List.length_drop]; omega) hgrows.sane hat'
      refine ⟨hgrows.trans hrest, fun h => ⟨(hok h).1, ?_⟩⟩
      have hlast : v.device.appendEnd p < d.appendEnd p := by omega
      apply Holds.cons
      · exact hlast.trans_le (hrest.appendEnd_le p)
      · exact (hrest.kept p _ hlast).trans hblock
      · have hholds := (hok h).2
        rw [Volume.withDevice_device, hend] at hholds
        exact hholds

theorem writeRepeated_one (bs : ℕ) (bytes : List β) (v : Vol σ β) :
    writeRepeated bs bytes 1 v = writeBlocks bs bytes.length bytes v := by
  simp only [writeRepeated]
  cases h : writeBlocks bs bytes.length bytes v with
  | mk r w => cases r <;> rfl

variable (C : Catalog σ (List β))

theorem leaveIndex_device (p : Part) (v : Vol σ β) :
    (leaveIndex p v).device = v.device := by
  cases p <;> rfl

/-- What is known after a call that has written `bytes` somewhere on partition
`p` and reports the first block. -/
def ReportsData (bs : ℕ) (p : Part) (bytes : List β) (v : Vol σ β)
    (r : TapeCall (Vol σ β) (Option ℕ)) : Prop :=
  v.device.Grows r.2.device ∧ ∀ x, r.1 = .ok x → bytes ≠ [] →
    ∃ start, x = some start ∧ Holds bs p start bytes r.2.device

theorem ReportsData.after {α : Type*} {bs : ℕ} {bytes : List β} {v : Vol σ β}
    {r : TapeCall (Vol σ β) α}
    {next : α → Vol σ β → TapeCall (Vol σ β) (Option ℕ)}
    (hr : v.device.Grows r.2.device)
    (hnext : ∀ a w, r = (.ok a, w) → w.device.Sane →
      ReportsData bs p bytes w (next a w)) : ReportsData bs p bytes v (r.andThen next) := by
  apply Outcome.andThen_elim (motive := fun r => ReportsData bs p bytes v r)
  · intro e w hw
    rw [hw] at hr
    exact ⟨hr, fun x hx => by simp at hx⟩
  · intro a w hw
    rw [hw] at hr
    obtain ⟨hgrows, hholds⟩ := hnext a w hw hr.sane
    exact ⟨hr.trans hgrows, hholds⟩

theorem seekAppend_grows {v : Vol σ β} (hsane : v.device.Sane)
    (unlockWrite : Bool) : v.device.Grows ((leaveIndex p v).onDevice
      (tapeSeekAppendPosition p unlockWrite)).2.device := by
  cases hseek : tapeSeekAppendPosition p unlockWrite v.device with
  | mk r d =>
    obtain ⟨hmedium, hends, hkeeps, -⟩ := tapeSeekAppendPosition_spec hseek
    rw [Volume.onDevice, leaveIndex_device, hseek]
    refine ⟨hkeeps hsane, fun q => (hends q).ge, fun q i _ => ?_⟩
    exact congrArg (fun m => (m q)[i]?) hmedium

/-- Every data write keeps what lies below the append positions; a successful
one reports the first block of its buffer. -/
theorem ltfsFsrawWriteData_spec {bs : ℕ} (hbs : 0 < bs) (bytes : List β)
    {v : Vol σ β} (hsane : v.device.Sane) :
    ReportsData bs p bytes v (ltfsFsrawWriteData C bs p bytes 1 v) := by
  simp only [ltfsFsrawWriteData]
  by_cases hempty : bytes = []
  · simp [hempty, ReportsData, Device.Grows.refl hsane]
  rw [if_neg (by simp [hempty]), if_neg (by simp)]
  cases tapeReadOnly p v.device with
  | error e => exact ⟨.refl hsane, fun x hx => by simp at hx⟩
  | ok _ =>
    apply ReportsData.after
    · exact ltfsWriteIndexConditional_keepsTape C _ v hsane
    intro _ w _ hw
    apply ReportsData.after
    · exact seekAppend_grows hw _
    intro _ x hx hsane'
    -- the device stands at the append position of `p`
    obtain ⟨d, hseek, rfl⟩ := Outcome.within_eq hx
    obtain ⟨-, -, -, hat⟩ := tapeSeekAppendPosition_spec hseek
    have hposition : d.position = ⟨p, d.appendEnd p⟩ := hat rfl
    have hblocks := writeBlocks_spec (v := (leaveIndex p w).withDevice d)
      hbs bytes.length bytes le_rfl hsane' (hat rfl)
    simp only [tapeGetPosition, Volume.withDevice_device, hposition, writeRepeated_one]
    apply Outcome.andThen_elim (motive := fun r => ReportsData bs p bytes _ r)
    · intro e y hy
      rw [hy] at hblocks
      exact ⟨hblocks.1, fun x hx => by simp at hx⟩
    · intro _ y hy
      rw [hy] at hblocks
      refine ⟨hblocks.1, fun x hx _ => ⟨d.appendEnd p, ?_, ?_⟩⟩
      · simpa using hx.symm
      · exact (hblocks.2 rfl).2

section Success

variable {v : Vol σ β}

theorem writeBlocks_succeeds (bs fuel : ℕ) (bytes : List β)
    (h : v.Reliable) : Outcome.Succeeds Volume.Reliable (writeBlocks bs fuel bytes v) := by
  induction fuel generalizing bytes v with
  | zero => exact ⟨(), v, rfl, h⟩
  | succ fuel ih =>
    rw [writeBlocks]
    split_ifs
    · exact ⟨(), v, rfl, h⟩
    · apply Outcome.Succeeds.andThen (P := Volume.Reliable)
      · obtain ⟨d, hd, hreliable, -⟩ := h.device.tapeWrite (bytes.take bs) false false
        refine ⟨(), v.withDevice d, ?_, h.withDevice hreliable⟩
        simp [Volume.onDevice, Outcome.within, hd]
      · intro _ w _ hw
        exact ih (bytes.drop bs) hw

theorem leaveIndex_reliable (h : v.Reliable) (p : Part) : (leaveIndex p v).Reliable := by
  cases p <;> exact ⟨h.device, h.cache⟩

theorem ltfsFsrawWriteData_succeeds (bs : ℕ) (bytes : List β)
    (h : v.Reliable) (hsane : v.device.Sane) :
    Outcome.Succeeds Volume.Reliable
      (ltfsFsrawWriteData C bs p bytes 1 v) := by
  simp only [ltfsFsrawWriteData]
  by_cases hempty : bytes = []
  · exact ⟨none, v, by simp [hempty], h⟩
  rw [if_neg (by simp [hempty]), if_neg (by simp), h.device.tapeReadOnly]
  have hindex := ltfsWriteIndexConditional_keepsTape C (otherPart p) v hsane
  apply Outcome.Succeeds.andThen (P := Volume.Reliable)
  · exact ltfsWriteIndexConditional_succeeds C _ h hsane
  intro _ w hw hreliable
  rw [hw] at hindex
  apply Outcome.Succeeds.andThen (P := Volume.Reliable)
  · obtain ⟨d, hd, hnext⟩ := hreliable.device.tapeSeekAppendPosition hindex.sane p (p = .ip)
    refine ⟨(), (leaveIndex p w).withDevice d, ?_,
      (leaveIndex_reliable hreliable p).withDevice hnext⟩
    rw [Volume.onDevice, leaveIndex_device, hd]
    rfl
  intro _ x _ hx
  simp only [tapeGetPosition, writeRepeated_one]
  apply Outcome.Succeeds.andThen (P := Volume.Reliable)
  · exact writeBlocks_succeeds bs bytes.length bytes hx
  · exact fun _ y _ hy => ⟨_, y, rfl, hy⟩

end Success

end AuroraLtfs.Raw
