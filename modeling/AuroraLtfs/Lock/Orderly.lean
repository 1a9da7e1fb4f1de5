import AuroraLtfs.Index.Success
import AuroraLtfs.Lock.Balance

/-!
# Calls that give the volume lock back

For every call on the volume, and whatever the drive and the other threads
answer, the lock operations made on behalf of the call are balanced exactly when
the call was spared the two situations it handles wrongly.  The raw readers and
writers and `ltfs_sync_index` have none.
-/

namespace AuroraLtfs.Lock

open AuroraLtfs.Tape
open AuroraLtfs.Index
open AuroraLtfs.RwLock

variable {σ β τ : Type*}

/-- The calls that take the volume lock and talk to the drive. -/
inductive VolOp (β : Type*) where
  | unmount (reason : SyncReason)
  | syncIndex (reason : SyncReason) (indexLocking : Bool) (type : IndexType)
  | fsrawRead (offset count : ℕ)
  | fsrawWrite (offset : ℕ) (partition : Option Part) (bytes : List β)
  | fsrawWriteData (partition : Option Part) (bytes : List β) (repetitions : ℕ)
  | fsopsGetxattr (attr : Attr)

/-- The volume as a thread finds it that holds nothing. -/
def entering (vol : τ) (mountType : MountType) (outside : Outside τ) : Shared τ where
  vol := vol
  mountType := mountType
  outside := outside
  asked := 0
  lockOps := []
  told := []

/-- Make a call, for at most `passes` passes: has it returned, and what has
become of the volume and the lock? -/
def VolOp.exec [Zero β] (C : Catalog σ (List β)) (bs : ℕ) (op : VolOp β)
    (passes : ℕ) (s : Shared (FileVol σ β)) : Bool × Shared (FileVol σ β) :=
  match op with
  | .unmount reason =>
    let ret := ltfsUnmount C reason passes s
    (ret.1.isSome, ret.2)
  | .syncIndex reason indexLocking type =>
    let ret := ltfsSyncIndex C reason indexLocking type passes s
    (ret.1.isSome, ret.2)
  | .fsrawRead offset count =>
    let ret := ltfsFsrawRead bs offset count passes s
    (ret.1.isSome, ret.2)
  | .fsrawWrite offset partition bytes =>
    let ret := ltfsFsrawWrite C bs offset partition bytes passes s
    (ret.1.isSome, ret.2)
  | .fsrawWriteData partition bytes repetitions =>
    let ret := ltfsFsrawWriteData C bs partition bytes repetitions passes s
    (ret.1.isSome, ret.2)
  | .fsopsGetxattr attr =>
    let ret := ltfsFsopsGetxattr C attr passes s
    (ret.1.isSome, ret.2)

/-- No lock operation was out of place, and a call that has returned has
released every mode as often as it acquired it. -/
def Balanced (out : Bool × Shared τ) : Prop :=
  out.2.held ≠ none ∧
    (out.1 = true → out.2.held = some .free ∧ Matched out.2.lockOps)

instance (ops : List LockOp) : Decidable (Matched ops) :=
  inferInstanceAs (Decidable (_ ∧ _))

instance (out : Bool × Shared τ) : Decidable (Balanced out) :=
  inferInstanceAs (Decidable (_ ∧ _))

theorem Balanced.of_free {out : Bool × Shared τ} (h : out.2.held = some .free) :
    Balanced out := by
  constructor
  · simp [h]
  · exact fun _ => ⟨h, matched_of_held h⟩

/-- What the answers have to spare a call.  `ltfs_unmount` needs a medium that
is not to be revalidated, and must not be given the lock of a mount from an
index file.  `ltfs_fsops_getxattr` needs its waits and revalidations to
succeed. -/
def VolOp.Orderly (op : VolOp β) (mountType : MountType) (told : List Told) : Prop :=
  match op with
  | .unmount _ => (∀ valid, Told.revalidated valid ∉ told) ∧
      (mountType = .rollbackMeta → Told.granted true ∉ told)
  | .fsopsGetxattr _ => ∀ t ∈ told, t.failed = false
  | _ => True

section Exceptions

variable (C : Catalog σ (List β))

theorem ltfsUnmount_balanced_iff (reason : SyncReason) (passes : ℕ)
    {s : Shared (FileVol σ β)} (hheld : s.held = some .free) (htold : s.told = []) :
    Balanced ((ltfsUnmount C reason passes s).1.isSome,
        (ltfsUnmount C reason passes s).2) ↔
      (∀ valid, Told.revalidated valid ∉ (ltfsUnmount C reason passes s).2.told) ∧
        (s.mountType = .rollbackMeta →
          Told.granted true ∉ (ltfsUnmount C reason passes s).2.told) := by
  have hend := ltfsUnmount_end C reason passes hheld htold
  generalize ltfsUnmount C reason passes s = r at hend ⊢
  have htwice : ∀ {returned : Bool} {t : Shared (FileVol σ β)}, ReleasedTwice t →
      (Balanced (returned, t) ↔ (∀ valid, Told.revalidated valid ∉ t.told) ∧
        (s.mountType = .rollbackMeta → Told.granted true ∉ t.told)) := by
    rintro returned t ⟨hnone, valid, hsaid⟩
    apply iff_of_false
    · exact fun hbalanced => hbalanced.1 hnone
    · exact fun horderly => horderly.1 valid hsaid
  obtain ⟨_ | ret, t⟩ := r
  · rcases hend with ⟨hfree, hnothing, -⟩ | h
    · have hbalanced : Balanced (false, t) := Balanced.of_free hfree
      simp [hbalanced, hnothing]
    · exact htwice h
  · cases hend with
    | balanced hfree hsure hmeta =>
      exact iff_of_true (Balanced.of_free hfree) ⟨hsure, hmeta⟩
    | kept hwrite hmount hsaid =>
      apply iff_of_false
      · intro hbalanced
        have hfree := (hbalanced.2 rfl).1
        simp [hwrite] at hfree
      · exact fun horderly => horderly.2 hmount hsaid
    | twice h => exact htwice h

theorem ltfsFsopsGetxattr_balanced_iff (attr : Attr) (passes : ℕ)
    {s : Shared (FileVol σ β)} (hheld : s.held = some .free) (htold : s.told = []) :
    Balanced ((ltfsFsopsGetxattr C attr passes s).1.isSome,
        (ltfsFsopsGetxattr C attr passes s).2) ↔
      ∀ t ∈ (ltfsFsopsGetxattr C attr passes s).2.told, t.failed = false := by
  have hend := ltfsFsopsGetxattr_end C attr passes (s := s) hheld (by simp [Sure, htold])
  rcases hend with ⟨hfree, hsure⟩ | ⟨hnone, hsure⟩
  · exact iff_of_true (Balanced.of_free hfree) hsure
  · apply iff_of_false _ hsure
    exact fun hbalanced => hbalanced.1 hnone

end Exceptions

/-- A call gives the volume lock back in the mode it holds it, and once, if and
only if the answers it was given are orderly for it. -/
theorem volumeLock_balanced_iff [Zero β] (C : Catalog σ (List β)) (bs : ℕ)
    (op : VolOp β) (passes : ℕ) (vol : FileVol σ β) (mountType : MountType)
    (outside : Outside (FileVol σ β)) :
    Balanced (op.exec C bs passes (entering vol mountType outside)) ↔
      op.Orderly mountType
        (op.exec C bs passes (entering vol mountType outside)).2.told := by
  have hheld : (entering vol mountType outside).held = some .free := rfl
  cases op with
  | unmount reason => exact ltfsUnmount_balanced_iff C reason passes hheld rfl
  | fsopsGetxattr attr => exact ltfsFsopsGetxattr_balanced_iff C attr passes hheld rfl
  | syncIndex reason indexLocking type =>
    have hfree := ltfsSyncIndex_free C reason indexLocking type passes _ hheld
    exact iff_of_true (Balanced.of_free hfree) trivial
  | fsrawRead offset count =>
    have hfree := ltfsFsrawRead_free bs offset count passes hheld
    exact iff_of_true (Balanced.of_free hfree) trivial
  | fsrawWrite offset partition bytes =>
    have hfree := ltfsFsrawWrite_free C bs offset partition bytes passes hheld
    exact iff_of_true (Balanced.of_free hfree) trivial
  | fsrawWriteData partition bytes repetitions =>
    have hfree := ltfsFsrawWriteData_free C bs partition bytes repetitions passes hheld
    exact iff_of_true (Balanced.of_free hfree) trivial

/-! ## Three calls that do not -/

/-- Every lock is granted; what the drive and a revalidation answer is given. -/
def answering (command revalidation : Option TapeError) : Outside τ where
  grant _ := ⟨0, true⟩
  meanwhile _ := id
  deviceLock _ := none
  wait _ := true
  revalidation _ := revalidation
  revalidated _ := id
  command _ := command
  lookup _ := none
  value _ := .ok 0

def emptyCatalog : Catalog Unit (List ℕ) where
  journalErr _ := false
  journalCount _ := 0
  incjClear := id
  schema _ _ := [[1]]
  afterSchema _ := id
  incSchema _ _ := [[2]]
  afterIncSchema _ := id

/-- A mounted volume whose drive reports a reset to its first `resets`
commands. -/
def resetVolume (resets : ℕ) : FileVol Unit ℕ :=
  let v := mounted () fun _ => [Record.block [0], .filemark, .block [1], .filemark]
  ({ vol := v.withDevice { v.device with
        answers := fun n => if n < resets then .failed .porOrBusReset .untouched
          else .done .clear }
     lastPos := none
     lastBlock := [] },
    { extents := [], size := 0, realsize := 0 })

/-- Unmounting a mount from an index file keeps the lock.  Unmounting after a
bus reset, with a successful revalidation and a successful second pass, releases
it twice.  So does reading the cartridge health when the revalidation fails. -/
theorem volumeLock_unbalanced :
    ¬Balanced ((VolOp.unmount .unmount).exec emptyCatalog 4 1
        (entering (resetVolume 0) .rollbackMeta (answering none none))) ∧
      ¬Balanced ((VolOp.unmount .unmount).exec emptyCatalog 4 2
        (entering (resetVolume 2) .normal (answering none none))) ∧
      ¬Balanced ((VolOp.fsopsGetxattr (.virtual (.query true))).exec emptyCatalog 4 1
        (entering (resetVolume 0) .normal
          (answering (some .porOrBusReset) (some revalFailed)))) := by
  decide

end AuroraLtfs.Lock
