import AuroraLtfs.Index.Frame
import AuroraLtfs.Tape.Reliable

/-!
# Index writes without errors

On a reliable drive `ltfs_write_index` succeeds for every partition and type,
and the volume stays reliable.  The one exception is the reason that handles a
write-permanent error: it leaves the write-error flag set by design.
-/

namespace AuroraLtfs.Index

open AuroraLtfs.Tape

variable {σ π : Type*} (C : Catalog σ π)

/-- Neither the drive nor the on-disk index cache fails. -/
structure Volume.Reliable (v : Volume σ π) : Prop where
  device : v.device.Reliable
  cache : ∀ n, v.cacheAnswers n = true

/-- A clean volume with medium `m` on a drive that carries out everything: the
data partition ends in an index. -/
def mounted (tree : σ) (m : Medium π) : Volume σ π where
  device :=
    { medium := m
      position := ⟨.dp, (m .dp).length⟩
      appendPos := fun _ => 0
      partitionSpace := fun _ => .writable
      writeProtected := false
      writeError := false
      appendOnlyMode := false
      isReadonly := false
      isWorm := false
      volStat := .unlocked
      answers := fun _ => .done .clear
      issued := 0
      history := [] }
  header := ⟨1, ⟨0, 0⟩, ⟨some .dp, 1⟩, ⟨none, 0⟩, ⟨none, 0⟩, ⟨none, 0⟩⟩
  tree := tree
  ipIndexFileEnd := true
  dpIndexFileEnd := true
  dirty := false
  incDirty := false
  atimeDirty := false
  useAtime := false
  writeVersion := 20500
  fullIndexInterval := 0
  fullIndexToGo := 0
  revalFailed := false
  indexCachePathW := false
  cacheAnswers := fun _ => true
  cacheIssued := 0
  clock := fun n => ⟨n, 0⟩
  ticks := 0
  completed := 0

theorem mounted_reliable (tree : σ) (m : Medium π) : (mounted tree m).Reliable :=
  ⟨⟨fun _ => rfl, rfl, rfl, fun _ => rfl, rfl⟩, fun _ => rfl⟩

theorem mounted_sane (tree : σ) (m : Medium π) : (mounted tree m).device.Sane :=
  fun _ => Nat.zero_le _

section Steps

variable {v : Volume σ π}

theorem Volume.Reliable.withDevice (h : v.Reliable) {d : Device π}
    (hd : d.Reliable) : (v.withDevice d).Reliable := ⟨hd, h.cache⟩

theorem Volume.Reliable.filemark (h : v.Reliable) (count : ℕ)
    (ignoreLess ignoreNospc immed : Bool) :
    Outcome.Succeeds Volume.Reliable
      (v.onDevice (tapeWriteFilemark count ignoreLess ignoreNospc immed)) := by
  obtain ⟨d, hd, hreliable⟩ := h.device.tapeWriteFilemark count ignoreLess ignoreNospc immed
  refine ⟨(), v.withDevice d, ?_, h.withDevice hreliable⟩
  simp [Volume.onDevice, Outcome.within, hd]

theorem Volume.Reliable.cacheWrite (h : v.Reliable) :
    Outcome.Succeeds Volume.Reliable (cacheWrite v) := by
  rw [Index.cacheWrite]
  split_ifs with hcache hanswer
  · exact ⟨(), _, rfl, h.device, h.cache⟩
  · exact absurd (h.cache _) hanswer
  · exact ⟨(), v, rfl, h⟩

theorem xmlOutput_succeeds (blocks : List π) (s : ℕ × Volume σ π) (h : s.2.Reliable) :
    Outcome.Succeeds (fun s : ℕ × Volume σ π => s.2.Reliable)
      (xmlOutput blocks s) := by
  induction blocks generalizing s with
  | nil => exact ⟨(), s, rfl, h⟩
  | cons b bs ih =>
    obtain ⟨n, v⟩ := s
    have hblock : Outcome.Succeeds Volume.Reliable
        ((v.onDevice (tapeWrite b true true)).andThen
          fun _ v => cacheWrite v) := by
      apply Outcome.Succeeds.andThen (P := Volume.Reliable)
      · obtain ⟨d, hd, hreliable, -⟩ := h.device.tapeWrite b true true
        refine ⟨(), v.withDevice d, ?_, h.withDevice hreliable⟩
        simp [Volume.onDevice, Outcome.within, hd]
      · intro _ w _ hw
        exact hw.cacheWrite
    obtain ⟨a, w, hw, hreliable⟩ := hblock
    rw [xmlOutput, hw]
    exact ih (n + 1, w) hreliable

theorem xmlSchemaToTape_succeeds (reason : SyncReason) (type : IndexType)
    (h : v.Reliable) :
    Outcome.Succeeds Volume.Reliable (xmlSchemaToTape C reason type v) := by
  obtain ⟨a, s, hs, hreliable⟩ := xmlOutput_succeeds (document C type v) (0, v) h
  rw [xmlSchemaToTape, hs]
  apply Outcome.Succeeds.andThen (P := Volume.Reliable)
  · apply Volume.Reliable.filemark
    exact ⟨hreliable.device, hreliable.cache⟩
  · intro _ w _ hw
    exact ⟨(), _, rfl, hw.device, hw.cache⟩

theorem writeDocument_succeeds (p : Part) (reason : SyncReason)
    (type : IndexType) (h : v.Reliable) :
    Outcome.Succeeds Volume.Reliable (writeDocument C p reason type v) := by
  apply Outcome.Succeeds.andThen (P := Volume.Reliable)
  · rw [flushData]
    split_ifs
    · exact h.filemark 0 true true false
    · exact ⟨(), v, rfl, h⟩
  · intro _ w _ hw
    apply (hw.filemark 1 true true true).andThen
    intro _ u _ hu
    exact xmlSchemaToTape_succeeds C reason type hu

theorem advanceGeneration_reliable (h : v.Reliable) : (advanceGeneration v).Reliable := by
  rw [advanceGeneration]
  split_ifs
  · exact ⟨h.device, h.cache⟩
  · exact h

theorem settle_reliable (p : Part) (type : IndexType) (h : v.Reliable) :
    (settle C p type v).Reliable := by
  cases type with
  | incremental => exact ⟨h.device, h.cache⟩
  | full | auto =>
    cases p with
    | dp => exact ⟨h.device, h.cache⟩
    | ip => exact ⟨h.device.tapeSetIpAppendPosition _, h.cache⟩

end Steps

section Whole

variable (p : Part) {reason : SyncReason} (type : IndexType) {v : Volume σ π}

theorem commit_succeeds (hreason : reason ≠ .writePerm) (volstat : VolStat)
    (h : v.Reliable) (hsane : v.device.Sane) :
    Outcome.Succeeds Volume.Reliable (commit C p reason volstat type v) := by
  obtain ⟨d, hd, hreliable⟩ := h.device.tapeSeekAppendPosition hsane p (p = .ip)
  have hprepared : (prepared type d v).Reliable :=
    ⟨hreliable, (advanceGeneration_reliable h).cache⟩
  obtain ⟨a, w, hw, hwritten⟩ := writeDocument_succeeds C p reason type hprepared
  rcases commit_cases C p reason volstat type v with
    ⟨e, d', hd', -⟩ | ⟨d', e, w', hd', hdoc, -⟩ | ⟨d', w', hd', hdoc, hcommit⟩
  · rw [hd] at hd'
    simp at hd'
  · rw [hd] at hd'
    simp only [Prod.mk.injEq, true_and] at hd'
    subst hd'
    rw [hw] at hdoc
    simp at hdoc
  · rw [hd] at hd'
    simp only [Prod.mk.injEq, true_and] at hd'
    subst hd'
    rw [hw] at hdoc
    simp only [Prod.mk.injEq] at hdoc
    obtain ⟨-, rfl⟩ := hdoc
    refine ⟨(), _, hcommit, ?_⟩
    rw [restoreWriteError, if_neg hreason]
    exact settle_reliable C p type hwritten

theorem enter_succeeds (hreason : reason ≠ .writePerm) (h : v.Reliable) :
    Outcome.Succeeds Volume.Reliable (enter C p reason type v) := by
  have hdevice := h.device.issue v.device.medium
  have hwritable : indexReadOnly (v.device.issue v.device.medium) = none := by
    simp [indexReadOnly, hdevice.tapeReadOnly]
  apply Outcome.Succeeds.andThen (P := fun w : Volume σ π => w =
    v.withDevice (v.device.issue v.device.medium))
  · refine ⟨v.device.volStat, _, ?_, rfl⟩
    simp [Volume.onDevice, Outcome.within, h.device.lockStatus]
  · intro volstat w _ hw
    subst hw
    simp only [hreason, if_false, Volume.withDevice_device, hwritable]
    exact ⟨_, _, rfl, h.withDevice hdevice⟩

theorem writeDataIndex_succeeds (hreason : reason ≠ .writePerm)
    (h : v.Reliable) (hsane : v.device.Sane) :
    Outcome.Succeeds Volume.Reliable (writeDataIndex C reason type v) := by
  apply (enter_succeeds C .dp type hreason h).andThen
  intro entry w hw hreliable
  have hgrows := enter_keepsTape C .dp reason type v hsane
  rw [hw] at hgrows
  exact commit_succeeds C .dp entry.2 hreason entry.1 hreliable hgrows.sane

theorem ltfsWriteIndex_succeeds (hreason : reason ≠ .writePerm)
    (h : v.Reliable) (hsane : v.device.Sane) :
    Outcome.Succeeds Volume.Reliable (ltfsWriteIndex C p reason type v) := by
  apply (enter_succeeds C p type hreason h).andThen
  intro entry w hw hreliable
  have hgrows := enter_keepsTape C p reason type v hsane
  rw [hw] at hgrows
  split_ifs
  · have hsuspended : (cacheSuspended C w).Reliable := ⟨hreliable.device, hreliable.cache⟩
    obtain ⟨a, u, hu, hwritten⟩ :=
      writeDataIndex_succeeds C .full hreason hsuspended hgrows.sane
    have hkept := writeDataIndex_keepsTape C reason .full (cacheSuspended C w) hgrows.sane
    rw [hu] at hkept
    rw [writeDataFirst, hu]
    exact commit_succeeds C p .full hreason entry.1
      ⟨hwritten.device, hwritten.cache⟩ hkept.sane
  · exact commit_succeeds C p entry.2 hreason entry.1 hreliable hgrows.sane

theorem ltfsWriteIndexConditional_succeeds (h : v.Reliable) (hsane : v.device.Sane) :
    Outcome.Succeeds Volume.Reliable (ltfsWriteIndexConditional C p v) := by
  simp only [ltfsWriteIndexConditional]
  split_ifs
  · exact ltfsWriteIndex_succeeds C p .full (by simp) h hsane
  · exact ⟨(), v, rfl, h⟩

end Whole

end AuroraLtfs.Index
