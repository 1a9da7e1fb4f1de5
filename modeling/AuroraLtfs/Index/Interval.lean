import AuroraLtfs.Index.Books
import AuroraLtfs.Index.Success

/-!
# How often a full index is written

With `full_index_interval` set to `N`, automatic syncs write `N` incremental
indexes and then a full one.  The decision is taken by `syncPlan`, taken again
by `ltfs_write_index`, whose document is of the type it arrives at
(`ltfsWriteIndex_records`), and the count is kept by `settle`.  Whatever writes a
full index, or mounts the volume, starts the count anew; from there on the
types written by automatic syncs repeat with period `N + 1`.

This holds of a volume whose format has incremental indexes, and of syncs that
do not overlap: a sync decides under the read lock and writes under the write
lock.
-/

namespace AuroraLtfs.Index

open AuroraLtfs.Tape

variable {σ π : Type*} (C : Catalog σ π) {v w : Volume σ π} {p : Part}
  {reason : SyncReason} {type : IndexType}

/-- The type of the index that a call puts on partition `p`.  Behind an index
on the data partition it is always a full one. -/
def writtenType (p : Part) (reason : SyncReason) (type : IndexType)
    (v : Volume σ π) : IndexType :=
  if dataFirst p reason v then .full else indexTypeOn C p type v

/-- The count of incremental indexes to go, once an index of the given type has
been written. -/
def toGoAfter (type : IndexType) (v : Volume σ π) : ℤ :=
  match type with
  | .incremental =>
    if 0 < v.fullIndexToGo then v.fullIndexToGo - 1 else v.fullIndexToGo
  | _ => v.fullIndexInterval

theorem prepared_toGo (type : IndexType) (d : Device π) (v : Volume σ π) :
    (prepared type d v).fullIndexToGo = v.fullIndexToGo := by
  simp only [prepared, advanceGeneration]
  split_ifs <;> rfl

theorem OnTape.toGo (h : OnTape v w) : w.fullIndexToGo = v.fullIndexToGo := by
  rw [OnTape] at h
  rw [h]

theorem settle_toGo (p : Part) (type : IndexType) (v : Volume σ π) :
    (settle C p type v).fullIndexToGo = toGoAfter type v := by
  cases type <;> cases p <;> rfl

theorem restoreWriteError_toGo (reason : SyncReason) (v : Volume σ π) :
    (restoreWriteError reason v).fullIndexToGo = v.fullIndexToGo := by
  rw [restoreWriteError]
  split_ifs <;> rfl

theorem toGoAfter_congr (type : IndexType) (htogo : w.fullIndexToGo = v.fullIndexToGo)
    (hinterval : w.fullIndexInterval = v.fullIndexInterval) :
    toGoAfter type w = toGoAfter type v := by
  cases type <;> simp [toGoAfter, htogo, hinterval]

theorem commit_toGo {volstat : VolStat} (h : commit C p reason volstat type v = (.ok (), w)) :
    w.fullIndexToGo = toGoAfter type v := by
  obtain ⟨d, u, -, -, hu, rfl⟩ := commit_eq_ok C h
  rw [restoreWriteError_toGo, settle_toGo]
  apply toGoAfter_congr
  · rw [hu.toGo, prepared_toGo]
  · exact ((prepared_keepsPolicy type d v).trans hu.keepsPolicy).interval

theorem OnTape.dataFirst (h : OnTape v w) (p : Part) (reason : SyncReason) :
    dataFirst p reason w = dataFirst p reason v := by
  rw [OnTape] at h
  rw [h]
  rfl

/-- The count after a successful call. -/
theorem ltfsWriteIndex_toGo (h : ltfsWriteIndex C p reason type v = (.ok (), w)) :
    w.fullIndexToGo = toGoAfter (writtenType C p reason type v) v := by
  obtain ⟨entry, u, henter, h⟩ := Outcome.andThen_eq_ok h
  have hu := (enter_counts C p reason type v).onTape
  rw [henter] at hu
  rw [writtenType, ← hu.dataFirst p reason]
  split_ifs at h ⊢ with hfirst
  · obtain ⟨again, t, hdata, h⟩ := Outcome.andThen_eq_ok h
    have ht := writeDataFirst_keepsPolicy C reason entry.1 u
    rw [hdata] at ht
    rw [commit_toGo C h]
    exact ht.interval.trans hu.keepsPolicy.interval
  · obtain ⟨d, -, htype, -⟩ := enter_eq_ok C henter
    rw [commit_toGo C h, ← htype]
    exact toGoAfter_congr entry.2 hu.toGo hu.keepsPolicy.interval

/-- The header of the document that an index write puts on the tape. -/
def nextHeader (p : Part) (type : IndexType) (v : Volume σ π) : Header :=
  advanceSelfptr type ⟨p, v.device.appendEnd p⟩
    (advanceBackptr type (advanceGeneration v).header)

/-- The document itself. -/
def nextDocument (p : Part) (type : IndexType) (v : Volume σ π) : List π :=
  document C type (v.withHeader (nextHeader p type v))

theorem settle_frame (p : Part) (type : IndexType) (v : Volume σ π) :
    (settle C p type v).device.medium = v.device.medium ∧
      (settle C p type v).device.appendPos .dp = v.device.appendPos .dp := by
  by_cases htype : type = .incremental
  · rw [htype, settle_device_incremental]
    exact ⟨rfl, rfl⟩
  · rw [settle_device_full C p type htype]
    cases p with
    | dp => exact ⟨rfl, rfl⟩
    | ip =>
      obtain ⟨hmedium, hdp, -⟩ :=
        tapeSetIpAppendPosition_frame (v.header.selfptr.block - 1) v.device
      exact ⟨hmedium, hdp⟩

/-- A commit that succeeds has put its document between two file marks at the append
position, and the header that belongs there into the volume. -/
theorem commit_written {volstat : VolStat} (hsane : v.device.Sane)
    (h : commit C p reason volstat type v = (.ok (), w)) :
    w.device.medium = v.device.medium.write p (v.device.appendEnd p)
        (framed (nextDocument C p type v)) ∧
      w.header = (settle C p type (v.withHeader (nextHeader p type v))).header ∧
      (p = .dp → w.device.appendEnd .dp =
        v.device.appendEnd .dp + (nextDocument C p type v).length + 2) := by
  obtain ⟨d, u, hseek, hdoc, hframe, rfl⟩ := commit_eq_ok C h
  obtain ⟨hmedium, hends, hsane', hat⟩ := tapeSeekAppendPosition_spec hseek
  have hposition : d.position = ⟨p, v.device.appendEnd p⟩ := by
    rw [show d.position = ⟨p, d.appendEnd p⟩ from hat rfl, hends p]
  have hheader : (prepared type d v).header = nextHeader p type v := by
    rw [prepared, Volume.withHeader_header, hposition, nextHeader]
  have htree : (prepared type d v).tree = v.tree := by
    simp only [prepared, advanceGeneration]
    split_ifs <;> rfl
  have hdocument : document C type (prepared type d v) = nextDocument C p type v :=
    document_congr C type hheader htree
  have hwrites := writeDocument_recordsAt C p reason type (prepared type d v)
    (hsane' hsane) (hat rfl)
  rw [hdoc, hdocument] at hwrites
  obtain ⟨hwritten, -, hlast⟩ := hwrites.done ⟨(), rfl⟩
  obtain ⟨hmedium', happend'⟩ := restoreWriteError_frame reason (settle C p type u)
  obtain ⟨hsettled, hdp⟩ := settle_frame C p type u
  refine ⟨?_, ?_, ?_⟩
  · rw [hmedium', hsettled, hwritten, ← hends p, ← hmedium]
    rfl
  · have hsame : u.header = nextHeader p type v := hframe.header_eq.trans hheader
    rw [(restoreWriteError_counts reason _).onTape.header_eq]
    cases type <;> cases p <;> simp only [settle, hsame] <;> rfl
  · rintro rfl
    have hend : (restoreWriteError reason (settle C .dp type u)).device.appendEnd .dp =
        u.device.appendEnd .dp := by
      simp only [Device.appendEnd, hmedium', happend', hsettled, hdp]
    have hlength : (framed (nextDocument C .dp type v)).length =
        (nextDocument C .dp type v).length + 2 := by simp [framed]
    rw [hend, hlast, ← hends .dp, add_assoc, ← hlength]
    rfl

theorem commit_records {volstat : VolStat} (hsane : v.device.Sane)
    (h : commit C p reason volstat type v = (.ok (), w)) :
    ∃ front u, w.device.medium p = front ++ framed (document C type u) := by
  have hmedium := (commit_written C hsane h).1
  rw [hmedium, Medium.write_same _ _ _ (by simp [framed])]
  exact ⟨_, _, rfl⟩

/-- The type that is written is that of the document on the tape. -/
theorem ltfsWriteIndex_records (hsane : v.device.Sane)
    (h : ltfsWriteIndex C p reason type v = (.ok (), w)) :
    ∃ front u, w.device.medium p =
      front ++ framed (document C (writtenType C p reason type v) u) := by
  obtain ⟨entry, u, henter, h⟩ := Outcome.andThen_eq_ok h
  have hu := (enter_counts C p reason type v).onTape
  have hgrows := enter_keepsTape C p reason type v hsane
  rw [henter] at hu hgrows
  rw [writtenType, ← hu.dataFirst p reason]
  split_ifs at h ⊢ with hfirst
  · obtain ⟨again, t, hdata, h⟩ := Outcome.andThen_eq_ok h
    have ht := writeDataFirst_keepsTape C reason entry.1 u hgrows.sane
    rw [hdata] at ht
    exact commit_records C ht.sane h
  · obtain ⟨d, -, htype, -⟩ := enter_eq_ok C henter
    rw [← htype]
    exact commit_records C hgrows.sane h

/-- A full index starts the count anew. -/
theorem ltfsWriteIndex_full_toGo (h : ltfsWriteIndex C p reason .full v = (.ok (), w)) :
    w.fullIndexToGo = w.fullIndexInterval := by
  have htype : writtenType C p reason .full v = .full := by
    simp [writtenType, indexTypeOn]
  have hpolicy := ltfsWriteIndex_keepsPolicy C p reason .full v
  rw [h] at hpolicy
  rw [ltfsWriteIndex_toGo C h, htype, hpolicy.interval]
  rfl

/-! ## Runs of automatic syncs -/

/-- From `v` to `w` changes have been made and journaled, without an error of
the journal.  No index is written meanwhile. -/
structure Journaled (v w : Volume σ π) : Prop extends KeepsPolicy v w where
  toGo : w.fullIndexToGo = v.fullIndexToGo
  dirty : w.dirty = true
  incDirty : w.incDirty = true
  noError : C.journalErr w.tree = false
  entries : C.journalCount w.tree ≠ 0

/-- An automatic sync that finds journaled changes and whose write succeeds.  It
decides at `u` and writes at `u'`; more changes may come in between. -/
inductive AutoSync (v : Volume σ π) : IndexType → Volume σ π → Prop where
  | intro {reason : SyncReason} {plan : Part × IndexType} {u u' w : Volume σ π}
      (changed : Journaled C v u) (planned : syncPlan C .auto u = some plan)
      (meanwhile : Journaled C u u')
      (written : syncWrite C reason plan u' = (.ok (), w)) :
      AutoSync v (writtenType C plan.1 reason plan.2 u') w

/-- Automatic syncs in a row, with the types of the indexes they write. -/
inductive AutoSyncs : Volume σ π → List IndexType → Volume σ π → Prop where
  | nil (v : Volume σ π) : AutoSyncs v [] v
  | cons {u v w : Volume σ π} {type : IndexType} {types : List IndexType}
      (sync : AutoSync C u type v) (rest : AutoSyncs v types w) :
      AutoSyncs u (type :: types) w

/-- What starts the count anew: an explicit full sync, a full index written by a
recovery, an unmount or otherwise, and the end of `ltfs_mount`. -/
inductive Restarts (v : Volume σ π) : Volume σ π → Prop where
  | fullSync {reason : SyncReason} {plan : Part × IndexType} {u w : Volume σ π}
      (planned : syncPlan C .full v = some plan)
      (written : syncWrite C reason plan u = (.ok (), w)) : Restarts v w
  | fullIndex {p : Part} {reason : SyncReason} {w : Volume σ π}
      (written : ltfsWriteIndex C p reason .full v = (.ok (), w)) : Restarts v w
  | mount (w : Volume σ π) :
      Restarts v { w with fullIndexToGo := w.fullIndexInterval }

theorem syncWrite_eq_ok {plan : Part × IndexType}
    (h : syncWrite C reason plan v = (.ok (), w)) :
    ltfsWriteIndex C plan.1 reason plan.2 v = (.ok (), w) := by
  rw [syncWrite] at h
  split at h
  · rename_i u hwrite
    rw [hwrite, h]
  · split_ifs at h
    · split at h <;> simp at h
    · simp at h

theorem Restarts.toGo (h : Restarts C v w) : w.fullIndexToGo = w.fullIndexInterval := by
  cases h with
  | fullSync planned written =>
    simp only [syncPlan, ltfsResolveIndexType_full] at planned
    split_ifs at planned
    simp only [Option.some.injEq] at planned
    subst planned
    exact ltfsWriteIndex_full_toGo C (syncWrite_eq_ok C written)
  | fullIndex written => exact ltfsWriteIndex_full_toGo C written
  | mount w => rfl

section Policy

variable {v w : Volume σ π}

/-- With journaled changes the type follows the policy alone. -/
theorem Journaled.resolve (h : Journaled C v w)
    (hallowed : ltfsIncrementalIndexAllowed w) :
    ltfsResolveIndexType C .auto w =
      if ltfsFullIndexDue w then .full else .incremental := by
  by_cases hdue : ltfsFullIndexDue w <;>
    simp [ltfsResolveIndexType, hdue, hallowed, h.noError, h.entries]

theorem KeepsPolicy.allowed (h : KeepsPolicy v w)
    (hallowed : ltfsIncrementalIndexAllowed v) : ltfsIncrementalIndexAllowed w := by
  simpa [ltfsIncrementalIndexAllowed, h.version] using hallowed

theorem Journaled.due (h : Journaled C v w) : ltfsFullIndexDue w = ltfsFullIndexDue v := by
  simp [ltfsFullIndexDue, h.interval, h.toGo]

/-- One sync: the type is the one the count asks for, and the count moves on. -/
theorem AutoSync.type_eq (h : AutoSync C v type w)
    (hallowed : ltfsIncrementalIndexAllowed v) :
    type = (if ltfsFullIndexDue v then .full else .incremental) ∧
      KeepsPolicy v w ∧ w.fullIndexToGo = toGoAfter type v := by
  obtain ⟨changed, planned, meanwhile, written⟩ := h
  rename_i reason plan u u'
  have hu := changed.toKeepsPolicy.allowed hallowed
  have hu' := meanwhile.toKeepsPolicy.allowed hu
  have hwrite := syncWrite_eq_ok C written
  have hplan : plan.2 = if ltfsFullIndexDue v then .full else .incremental := by
    simp only [syncPlan] at planned
    split_ifs at planned
    simp only [Option.some.injEq] at planned
    rw [← planned, changed.resolve C hu, changed.due C]
  have htype : writtenType C plan.1 reason plan.2 u' = plan.2 := by
    by_cases hdue : ltfsFullIndexDue v
    · simp only [hdue, if_true] at hplan
      simp [writtenType, hplan, indexTypeOn]
    · -- an incremental index is planned for the data partition
      simp only [hdue, Bool.false_eq_true, if_false] at hplan
      have hdp : plan.1 = .dp := by
        simp only [syncPlan] at planned
        split_ifs at planned
        simp only [Option.some.injEq] at planned
        rw [← planned] at hplan ⊢
        simp only at hplan ⊢
        simp [syncPartition, hplan]
      simp [writtenType, hdp, hplan, dataFirst, indexTypeOn,
        ltfsResolveIndexType, hu', meanwhile.noError, meanwhile.entries]
  have hpolicy := ltfsWriteIndex_keepsPolicy C plan.1 reason plan.2 u'
  rw [hwrite] at hpolicy
  have hbefore := changed.toKeepsPolicy.trans meanwhile.toKeepsPolicy
  refine ⟨htype.trans hplan, hbefore.trans hpolicy, ?_⟩
  rw [ltfsWriteIndex_toGo C hwrite]
  exact toGoAfter_congr _ (meanwhile.toGo.trans changed.toGo) hbefore.interval

/-- Where `k` incremental indexes are to go, the full ones are those at `k`,
`k + (N + 1)`, and so on. -/
theorem AutoSyncs.types_eq {N : ℕ} {types : List IndexType} (h : AutoSyncs C v types w)
    (hallowed : ltfsIncrementalIndexAllowed v) (hinterval : v.fullIndexInterval = N)
    (k : ℕ) (hk : k ≤ N) (htogo : v.fullIndexToGo = k) (i : ℕ) (hi : i < types.length) :
    types[i] = if (i + (N + 1 - k)) % (N + 1) = 0 then .full else .incremental := by
  induction h generalizing k i with
  | nil v => simp at hi
  | @cons u v w type types sync rest ih =>
    obtain ⟨htype, hpolicy, hnext⟩ := sync.type_eq C hallowed
    have hdue : ltfsFullIndexDue u ↔ k = 0 := by
      simp [ltfsFullIndexDue, hinterval, htogo]
    have ihnext := ih (hpolicy.allowed hallowed) (hpolicy.interval.trans hinterval)
    rcases Nat.eq_zero_or_pos k with hzero | hpos
    · -- the full index is due
      subst hzero
      simp only [hdue.2 rfl, if_true] at htype
      subst htype
      cases i with
      | zero => simp
      | succ i =>
        have htogo' : v.fullIndexToGo = N := by
          rw [hnext, ← hinterval]
          rfl
        have hmod : (i + 1 + (N + 1 - 0)) % (N + 1) = (i + (N + 1 - N)) % (N + 1) := by
          rw [show i + 1 + (N + 1 - 0) = i + (N + 1 - N) + (N + 1) by omega,
            Nat.add_mod_right]
        rw [hmod]
        simpa using ihnext N le_rfl htogo' i (by simpa using hi)
    · have hnotdue : ltfsFullIndexDue u = false := by
        rw [← Bool.not_eq_true, hdue]
        omega
      simp only [hnotdue, Bool.false_eq_true, if_false] at htype
      subst htype
      cases i with
      | zero =>
        have hmod : (0 + (N + 1 - k)) % (N + 1) ≠ 0 := by
          rw [Nat.mod_eq_of_lt (by omega)]
          omega
        rw [if_neg hmod]
        rfl
      | succ i =>
        have htogo' : v.fullIndexToGo = (k - 1 : ℕ) := by
          rw [hnext]
          simp only [toGoAfter, htogo]
          split_ifs <;> omega
        have hmod : i + 1 + (N + 1 - k) = i + (N + 1 - (k - 1)) := by
          omega
        rw [hmod]
        simpa using ihnext (k - 1) (by omega) htogo' i (by simpa using hi)

end Policy

/-- Once the count has been started anew, automatic syncs write `N` incremental
indexes and then a full one, over and over. -/
theorem autoSyncs_periodic {N : ℕ} {v₀ v w : Volume σ π} {types : List IndexType}
    (hrestart : Restarts C v₀ v) (hinterval : v.fullIndexInterval = N)
    (hallowed : ltfsIncrementalIndexAllowed v) (hrun : AutoSyncs C v types w) (i : ℕ)
    (hi : i < types.length) :
    types[i] = if (i + 1) % (N + 1) = 0 then .full else .incremental := by
  have htogo : v.fullIndexToGo = N := (hrestart.toGo C).trans hinterval
  have htypes := hrun.types_eq C hallowed hinterval N le_rfl htogo i hi
  rwa [Nat.add_sub_cancel_left] at htypes

/-! ## A volume that is synced twice -/

/-- One change of the tree, journaled. -/
def touch (v : Volume ℕ ℕ) : Volume ℕ ℕ :=
  { v with tree := 1, dirty := true, incDirty := true }

theorem touch_journaled (v : Volume ℕ ℕ) : Journaled countCatalog v (touch v) :=
  ⟨⟨rfl, rfl⟩, rfl, rfl, rfl, rfl, one_ne_zero⟩

/-- A volume of the given format version, just mounted with an interval of
one. -/
def everySecondFull (version : ℕ) : Volume ℕ ℕ :=
  { mounted 0 fun _ => [.filemark, .block 0, .filemark] with
    writeVersion := version
    fullIndexInterval := 1
    fullIndexToGo := 1 }

/-- The volume after an index as planned, from `v`. -/
def synced (plan : Part × IndexType) (v : Volume ℕ ℕ) : Volume ℕ ℕ :=
  (syncWrite countCatalog .periodic plan v).2

theorem autoSync_of_synced {v : Volume ℕ ℕ} (plan : Part × IndexType)
    (hplan : syncPlan countCatalog .auto (touch v) = some plan)
    (hok : (syncWrite countCatalog .periodic plan (touch v)).1 = .ok ()) :
    AutoSync countCatalog v
      (writtenType countCatalog plan.1 .periodic plan.2 (touch v))
      (synced plan (touch v)) :=
  .intro (touch_journaled v) hplan (touch_journaled (touch v))
    (Prod.ext hok rfl)

theorem everySecondFull_restarts (version : ℕ) :
    Restarts countCatalog (everySecondFull version) (everySecondFull version) :=
  .mount (everySecondFull version)

/-- Two syncs of the volume: an incremental index, then a full one. -/
theorem autoSyncs_periodic_two :
    ∃ w, AutoSyncs countCatalog (everySecondFull 20500) [.incremental, .full] w ∧
      ∀ i (hi : i < 2), [IndexType.incremental, .full].get ⟨i, hi⟩ =
        if (i + 1) % (1 + 1) = 0 then .full else .incremental := by
  have hfirst := autoSync_of_synced (v := everySecondFull 20500) (.dp, .incremental) rfl rfl
  have hsecond := autoSync_of_synced
    (v := synced (.dp, .incremental) (touch (everySecondFull 20500)))
    (.dp, .full) rfl rfl
  have hrun := AutoSyncs.cons hfirst (.cons hsecond (.nil _))
  exact ⟨_, hrun, autoSyncs_periodic countCatalog (N := 1)
    (everySecondFull_restarts 20500) rfl rfl hrun⟩

/-- A volume below format version 2.5.0 gets full indexes only; and of two syncs
that overlap, both may find the full index due. -/
theorem autoSyncs_not_periodic :
    (∃ v w : Volume ℕ ℕ, Restarts countCatalog v v ∧ v.fullIndexInterval = 1 ∧
      AutoSyncs countCatalog v [.full, .full] w) ∧
    ∃ v w plan, v.fullIndexInterval = 1 ∧ ltfsIncrementalIndexAllowed v ∧
      syncPlan countCatalog .auto (touch v) = some plan ∧
      syncWrite countCatalog .periodic plan (touch v) = (.ok (), w) ∧
      (syncWrite countCatalog .periodic plan (touch w)).1 = .ok () ∧
      writtenType countCatalog plan.1 .periodic plan.2 (touch v) = .full ∧
      writtenType countCatalog plan.1 .periodic plan.2 (touch w) = .full := by
  constructor
  · have hfirst := autoSync_of_synced (v := everySecondFull 20400) (.dp, .full) rfl rfl
    have hsecond := autoSync_of_synced
      (v := synced (.dp, .full) (touch (everySecondFull 20400))) (.dp, .full) rfl rfl
    exact ⟨_, _, everySecondFull_restarts 20400, rfl, .cons hfirst (.cons hsecond (.nil _))⟩
  · exact ⟨synced (.dp, .incremental) (touch (everySecondFull 20500)), _,
      (.dp, .full), rfl, rfl, rfl, Prod.ext rfl rfl, rfl, rfl, rfl⟩

end AuroraLtfs.Index
