import AuroraLtfs.Index.Sync
import AuroraLtfs.Index.Atomicity

/-!
# What an index write does to the books of a volume

While a document goes to the tape nothing of the volume moves but the device,
the tree, the on-disk cache and the count of documents.  A successful call
therefore ends in `settle` of the volume it had prepared, and the policy that
chooses between full and incremental indexes is the caller's throughout.
-/

namespace AuroraLtfs.Index

open AuroraLtfs.Tape

variable {σ π : Type*} (C : Catalog σ π)

/-- A call that succeeds has put its document on the tape and settled. -/
theorem commit_eq_ok {p : Part} {reason : SyncReason} {volstat : VolStat}
    {type : IndexType} {v w : Volume σ π}
    (h : commit C p reason volstat type v = (.ok (), w)) :
    ∃ d u, tapeSeekAppendPosition p (p = .ip) v.device = (.ok (), d) ∧
      writeDocument C p reason type (prepared type d v) = (.ok (), u) ∧
      OnTape (prepared type d v) u ∧
      w = restoreWriteError reason (settle C p type u) := by
  rcases commit_cases C p reason volstat type v with
    ⟨e, d, -, hcommit⟩ | ⟨d, e, u, -, -, hcommit⟩ | ⟨d, u, hseek, hdoc, hcommit⟩
  · rw [hcommit] at h
    exact absurd (congrArg Prod.fst h) (outWritePerm_error _ _)
  · rw [hcommit] at h
    exact absurd (congrArg Prod.fst h) (outWritePerm_error _ _)
  · rw [hcommit, Prod.mk.injEq] at h
    have hcounts := writeDocument_countsDocument C p reason type (prepared type d v)
    rw [hdoc] at hcounts
    exact ⟨d, u, hseek, hdoc, hcounts.onTape, h.2.symm⟩

/-! ## The policy -/

/-- Neither the interval nor the format version has changed. -/
structure KeepsPolicy (v w : Volume σ π) : Prop where
  interval : w.fullIndexInterval = v.fullIndexInterval
  version : w.writeVersion = v.writeVersion

theorem KeepsPolicy.trans {u v w : Volume σ π} (huv : KeepsPolicy u v)
    (hvw : KeepsPolicy v w) : KeepsPolicy u w :=
  ⟨hvw.interval.trans huv.interval, hvw.version.trans huv.version⟩

theorem OnTape.keepsPolicy {v w : Volume σ π} (h : OnTape v w) : KeepsPolicy v w := by
  rw [OnTape] at h
  constructor <;> rw [h]

theorem withHeader_keepsPolicy {v w : Volume σ π} (hw : KeepsPolicy v w)
    (header : Header) : KeepsPolicy v (w.withHeader header) :=
  ⟨hw.interval, hw.version⟩

theorem prepared_keepsPolicy (type : IndexType) (d : Device π)
    (v : Volume σ π) : KeepsPolicy v (prepared type d v) := by
  simp only [prepared, advanceGeneration]
  split_ifs <;> exact ⟨rfl, rfl⟩

theorem settle_keepsPolicy (p : Part) (type : IndexType) (v : Volume σ π) :
    KeepsPolicy v (settle C p type v) := by
  cases type <;> cases p <;> exact ⟨rfl, rfl⟩

theorem commit_keepsPolicy (p : Part) (reason : SyncReason)
    (volstat : VolStat) (type : IndexType) (v : Volume σ π) :
    KeepsPolicy v (commit C p reason volstat type v).2 := by
  have hdocument (d : Device π) : KeepsPolicy v
      (writeDocument C p reason type (prepared type d v)).2 :=
    (prepared_keepsPolicy type d v).trans
      (writeDocument_countsDocument C p reason type _).onTape.keepsPolicy
  rcases commit_cases C p reason volstat type v with
    ⟨e, d, -, h⟩ | ⟨d, e, w, -, hdoc, h⟩ | ⟨d, w, -, hdoc, h⟩
  · rw [h]
    have hprepared := prepared_keepsPolicy type d v
    exact (withHeader_keepsPolicy hprepared _).trans
      (outWritePerm_counts p reason volstat _ _ _).onTape.keepsPolicy
  · rw [h]
    have hw := hdocument d
    rw [hdoc] at hw
    exact (withHeader_keepsPolicy hw _).trans
      (outWritePerm_counts p reason volstat _ _ _).onTape.keepsPolicy
  · rw [h]
    have hw := hdocument d
    rw [hdoc] at hw
    exact (hw.trans (settle_keepsPolicy C p type w)).trans
      (restoreWriteError_counts reason _).onTape.keepsPolicy

theorem writeDataIndex_keepsPolicy (reason : SyncReason) (type : IndexType)
    (v : Volume σ π) : KeepsPolicy v (writeDataIndex C reason type v).2 := by
  apply Outcome.andThen_rel (R := KeepsPolicy) KeepsPolicy.trans
  · exact (enter_counts C .dp reason type v).onTape.keepsPolicy
  · intro entry w _
    exact commit_keepsPolicy C .dp reason entry.1 entry.2 w

theorem writeDataFirst_keepsPolicy (reason : SyncReason) (volstat : VolStat)
    (v : Volume σ π) : KeepsPolicy v (writeDataFirst C reason volstat v).2 := by
  have hdata := writeDataIndex_keepsPolicy C reason .full (cacheSuspended C v)
  have hstart : KeepsPolicy v (writeDataIndex C reason .full
      (cacheSuspended C v)).2 := ⟨hdata.interval, hdata.version⟩
  rw [writeDataFirst]
  dsimp only
  split
  · exact ⟨hstart.interval, hstart.version⟩
  · split_ifs
    · exact ⟨hstart.interval, hstart.version⟩
    · exact ⟨hstart.interval, hstart.version⟩
    · apply Outcome.andThen_rel (R := KeepsPolicy) KeepsPolicy.trans
      · exact ⟨hstart.interval, hstart.version⟩
      · intro _ w _
        exact ⟨rfl, rfl⟩
    · exact ⟨hstart.interval, hstart.version⟩

theorem ltfsWriteIndex_keepsPolicy (p : Part) (reason : SyncReason)
    (type : IndexType) (v : Volume σ π) :
    KeepsPolicy v (ltfsWriteIndex C p reason type v).2 := by
  apply Outcome.andThen_rel (R := KeepsPolicy) KeepsPolicy.trans
  · exact (enter_counts C p reason type v).onTape.keepsPolicy
  · intro entry w _
    split_ifs
    · apply Outcome.andThen_rel (R := KeepsPolicy) KeepsPolicy.trans
      · exact writeDataFirst_keepsPolicy C reason entry.1 w
      · intro again u _
        exact commit_keepsPolicy C p again.1 again.2 .full u
    · exact commit_keepsPolicy C p reason entry.1 entry.2 w

end AuroraLtfs.Index
