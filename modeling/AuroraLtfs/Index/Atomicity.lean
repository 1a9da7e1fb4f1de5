import AuroraLtfs.Index.Writer

/-!
# The index header across a failed index write

Every exit of `ltfs_write_index` that has moved the header puts it back, with
one exception: an incremental index that fails behind the seek to the append
position keeps the new generation and modification time.
-/

namespace AuroraLtfs.Index

open AuroraLtfs.Tape

variable {σ π : Type*} (C : Catalog σ π)

/-! ## Calls that leave the books alone -/

/-- Only device, tree, on-disk cache and document count have moved. -/
def OnTape (v w : Volume σ π) : Prop :=
  w = { v with
    device := w.device
    tree := w.tree
    completed := w.completed
    cacheIssued := w.cacheIssued }

/-- Moreover `n` documents have been completed. -/
structure Counts (n : ℕ) (v w : Volume σ π) : Prop where
  onTape : OnTape v w
  completed : w.completed = v.completed + n

/-- The call completes a document exactly when it succeeds. -/
def CountsDocument (v : Volume σ π) (r : TapeCall (Volume σ π) Unit) : Prop :=
  Counts (if r.1 = .ok () then 1 else 0) v r.2

/-- The call moves neither the header nor the count of documents. -/
def KeepsHeader {α : Type*} (v : Volume σ π) (r : TapeCall (Volume σ π) α) : Prop :=
  r.2.header = v.header ∧ r.2.completed = v.completed

section Frame

variable {p : Part} {reason : SyncReason} {type : IndexType}
variable {volstat : VolStat} {updateVollock : Bool}
variable {α β : Type*} {n : ℕ} {u v w : Volume σ π}

theorem OnTape.trans (huv : OnTape u v) (hvw : OnTape v w) : OnTape u w := by
  rw [OnTape] at huv hvw ⊢
  rw [hvw, huv]

theorem OnTape.header_eq (h : OnTape v w) : w.header = v.header := by
  rw [OnTape] at h
  rw [h]

theorem OnTape.isDirty (h : OnTape v w) : ltfsIsDirty w = ltfsIsDirty v := by
  rw [OnTape] at h
  rw [h]
  rfl

theorem Counts.refl (v : Volume σ π) : Counts 0 v v := ⟨rfl, rfl⟩

theorem Counts.trans (huv : Counts 0 u v) (hvw : Counts n v w) : Counts n u w :=
  ⟨huv.onTape.trans hvw.onTape, by rw [hvw.completed, huv.completed, add_zero]⟩

theorem Counts.keepsHeader {r : TapeCall (Volume σ π) α} (h : Counts 0 v r.2) :
    KeepsHeader v r :=
  ⟨h.onTape.header_eq, h.completed⟩

theorem onDevice_counts (v : Volume σ π) (call : Device π → TapeCall (Device π) α) :
    Counts 0 v (v.onDevice call).2 := ⟨rfl, rfl⟩

theorem Counts.andThen {r : TapeCall (Volume σ π) α}
    {next : α → Volume σ π → TapeCall (Volume σ π) Unit}
    (hr : Counts 0 v r.2) (hnext : ∀ a w, CountsDocument w (next a w)) :
    CountsDocument v (r.andThen next) := by
  refine Outcome.andThen_elim (fun e s hs => ?_) (fun a s hs => ?_)
  · rw [hs] at hr
    simpa [CountsDocument] using hr
  · rw [hs] at hr
    exact hr.trans (hnext a s)

theorem cacheWrite_counts (v : Volume σ π) : Counts 0 v (cacheWrite v).2 := by
  unfold cacheWrite
  split_ifs <;> exact ⟨rfl, rfl⟩

theorem xmlOutput_counts (blocks : List π) (s : ℕ × Volume σ π) :
    Counts 0 s.2 (xmlOutput blocks s).2.2 := by
  induction blocks generalizing s with
  | nil => exact .refl _
  | cons b bs ih =>
    obtain ⟨n, v⟩ := s
    rw [xmlOutput]
    apply Outcome.andThen_rel
      (R := fun s t : ℕ × Volume σ π => Counts 0 s.2 t.2) (s := (n, v))
      Counts.trans
    · apply Outcome.andThen_rel (R := Counts 0) Counts.trans
      · exact onDevice_counts v _
      · intro _ w _
        exact cacheWrite_counts w
    · intro _ s _
      exact ih (s.1 + 1, s.2)

theorem xmlSchemaToTape_countsDocument (v : Volume σ π) :
    CountsDocument v (xmlSchemaToTape C reason type v) := by
  have hout := xmlOutput_counts (document C type v) (0, v)
  unfold xmlSchemaToTape
  generalize xmlOutput (document C type v) (0, v) = r at hout ⊢
  obtain ⟨_ | _, n, w⟩ := r
  · exact hout.trans ⟨rfl, rfl⟩
  · have htree : Counts 0 v (w.withTree (afterDocument C type none w.tree)) :=
      hout.trans ⟨rfl, rfl⟩
    exact (htree.trans (onDevice_counts _ _)).andThen fun _ _ => ⟨rfl, rfl⟩

theorem flushData_counts (p : Part) (v : Volume σ π) : Counts 0 v (flushData p v).2 := by
  unfold flushData
  split_ifs
  · exact onDevice_counts v _
  · exact .refl v

theorem writeDocument_countsDocument (p : Part) (reason : SyncReason)
    (type : IndexType) (v : Volume σ π) :
    CountsDocument v (writeDocument C p reason type v) :=
  (flushData_counts p v).andThen fun _ w =>
    (onDevice_counts w _).andThen fun _ _ => xmlSchemaToTape_countsDocument C _

theorem restoreWriteError_counts (reason : SyncReason) (v : Volume σ π) :
    Counts 0 v (restoreWriteError reason v) := by
  unfold restoreWriteError
  split_ifs <;> exact ⟨rfl, rfl⟩

theorem outWritePerm_counts (p : Part) (reason : SyncReason) (volstat : VolStat)
    (updateVollock : Bool) (ret : Except TapeError Unit) (v : Volume σ π) :
    Counts 0 v (outWritePerm p reason volstat updateVollock ret v).2 := by
  have hrestored := restoreWriteError_counts reason v
  rw [outWritePerm]
  split
  · exact hrestored
  · apply hrestored.trans
    apply Outcome.andThen_rel (R := Counts 0) Counts.trans
    · exact onDevice_counts _ _
    · intro _ w _
      exact .refl w

/-- The common exit never turns an error into success. -/
theorem outWritePerm_error (e : TapeError) (v : Volume σ π) :
    (outWritePerm p reason volstat updateVollock (.error e) v).1 ≠ .ok () := by
  unfold outWritePerm
  dsimp only
  split
  · simp
  · exact Outcome.andThen_elim
      (motive := fun r : TapeCall (Volume σ π) Unit => r.1 ≠ .ok ())
      (fun e s _ => by simp) (fun a s _ => by simp)

end Frame

/-! ## What the exits put back -/

theorem retractGeneration_advanceGeneration (v : Volume σ π) :
    retractGeneration (ltfsIsDirty v) v.header (advanceGeneration v).header =
      v.header := by
  unfold retractGeneration advanceGeneration
  split_ifs <;> simp

theorem rollback_full {type : IndexType} (hfull : type ≠ .incremental)
    (pos : Position) (v : Volume σ π) :
    rollback type (ltfsIsDirty v) v.header
        (advanceSelfptr type pos
          (advanceBackptr type (advanceGeneration v).header)) = v.header := by
  have hback := retractGeneration_advanceGeneration v
  cases type with
  | incremental => exact absurd rfl hfull
  | full | auto =>
    simp only [rollback, advanceSelfptr, advanceBackptr, retractGeneration] at hback ⊢
    split_ifs at hback ⊢ <;> simp_all [Header.ext_iff]

/-- The exits of an incremental index restore its two pointers, and nothing
else. -/
theorem rollback_incremental (pos : Position) (v : Volume σ π) :
    rollback .incremental (ltfsIsDirty v) v.header
        (advanceSelfptr .incremental pos
          (advanceBackptr .incremental (advanceGeneration v).header)) =
      (advanceGeneration v).header := by
  simp only [rollback, advanceSelfptr, advanceBackptr, advanceGeneration]
  split_ifs <;> rfl

theorem advanceGeneration_header_eq_iff (v : Volume σ π) :
    (advanceGeneration v).header = v.header ↔ ¬ltfsIsDirty v := by
  constructor
  · intro h hdirty
    have hgeneration := congrArg Header.generation h
    simp [advanceGeneration, hdirty] at hgeneration
  · intro hclean
    simp [advanceGeneration, hclean]

/-! ## The two halves of the function -/

/-- The incremental index of a changed volume has got past the seek to the
append position: from here on no exit restores the generation. -/
def IncrementalPastSeek (p : Part) (type : IndexType) (v : Volume σ π) : Prop :=
  type = .incremental ∧ ltfsIsDirty v ∧
    (tapeSeekAppendPosition p (p = .ip) v.device).1 = .ok ()

section Halves

variable (p : Part) (reason : SyncReason) (volstat : VolStat)
variable (type : IndexType) (v : Volume σ π)

theorem settle_completed : (settle C p type v).completed = v.completed := by
  cases type <;> cases p <;> rfl

theorem commit_ok_completed (hok : (commit C p reason volstat type v).1 = .ok ()) :
    (commit C p reason volstat type v).2.completed = v.completed + 1 := by
  rcases commit_cases C p reason volstat type v with
    ⟨e, d, -, h⟩ | ⟨d, e, w, -, -, h⟩ | ⟨d, w, -, hdoc, h⟩
  · exact absurd (h ▸ hok) (outWritePerm_error _ _)
  · exact absurd (h ▸ hok) (outWritePerm_error _ _)
  · have hcounts := (writeDocument_countsDocument C p reason type
      (prepared type d v)).completed
    rw [h, (restoreWriteError_counts reason _).completed, settle_completed]
    simpa [hdoc] using hcounts

theorem prepared_isDirty (type : IndexType) (d : Device π) (v : Volume σ π) :
    ltfsIsDirty (prepared type d v) = ltfsIsDirty v := by
  simp only [prepared, advanceGeneration]
  split_ifs <;> rfl

/-- What a call that fails leaves: no document, and the books as they were, but
for the generation of an incremental index that got past the seek. -/
structure CommitFailed (p : Part) (type : IndexType) (v w : Volume σ π) : Prop where
  completed : w.completed = v.completed
  isDirty : ltfsIsDirty w = ltfsIsDirty v
  header : ¬IncrementalPastSeek p type v → w.header = v.header
  pastSeek : IncrementalPastSeek p type v → w.header = (advanceGeneration v).header

theorem commit_error (herror : (commit C p reason volstat type v).1 ≠ .ok ()) :
    CommitFailed p type v (commit C p reason volstat type v).2 := by
  rcases commit_cases C p reason volstat type v with
    ⟨e, d, hseek, h⟩ | ⟨d, e, w, hseek, hdoc, h⟩ | ⟨d, w, -, -, h⟩
  · -- a failed seek takes generation and time back for both types
    have hexit := outWritePerm_counts p reason volstat false (.error e)
      (((advanceGeneration v).withDevice d).withHeader
        (retractGeneration (ltfsIsDirty v) v.header (advanceGeneration v).header))
    rw [h]
    refine ⟨?_, ?_, fun _ => ?_, fun hpast => ?_⟩
    · simpa using hexit.completed
    · exact hexit.onTape.isDirty.trans (prepared_isDirty type d v)
    · exact hexit.onTape.header_eq.trans (retractGeneration_advanceGeneration v)
    · simp [IncrementalPastSeek, hseek] at hpast
  · have hcounts := writeDocument_countsDocument C p reason type (prepared type d v)
    rw [hdoc] at hcounts
    have hexit := outWritePerm_counts p reason volstat e.isWritePerm (.error e)
      (w.withHeader (rollback type (ltfsIsDirty v) v.header w.header))
    have hheader : (commit C p reason volstat type v).2.header =
        rollback type (ltfsIsDirty v) v.header (prepared type d v).header := by
      rw [h, hexit.onTape.header_eq, Volume.withHeader_header, hcounts.onTape.header_eq]
    refine ⟨?_, ?_, fun hpast => ?_, fun hpast => ?_⟩
    · have hcompleted := hcounts.completed
      rw [h, hexit.completed]
      simpa using hcompleted
    · rw [h]
      exact hexit.onTape.isDirty.trans
        (hcounts.onTape.isDirty.trans (prepared_isDirty type d v))
    · rw [hheader]
      by_cases htype : type = .incremental
      · subst htype
        have hclean : ¬ltfsIsDirty v := fun hdirty =>
          hpast ⟨rfl, hdirty, congrArg Prod.fst hseek⟩
        rw [prepared, Volume.withHeader_header, rollback_incremental,
          (advanceGeneration_header_eq_iff v).2 hclean]
      · rw [prepared, Volume.withHeader_header, rollback_full htype]
    · obtain ⟨rfl, -, -⟩ := hpast
      rw [hheader, prepared, Volume.withHeader_header, rollback_incremental]
  · exact absurd (by rw [h]) herror

theorem CommitFailed.header_iff {w : Volume σ π} (h : CommitFailed p type v w) :
    w.header = v.header ↔ ¬IncrementalPastSeek p type v := by
  refine ⟨fun hsame hpast => ?_, h.header⟩
  rw [h.pastSeek hpast, advanceGeneration_header_eq_iff] at hsame
  exact hsame hpast.2.1

theorem enter_counts : Counts 0 v (enter C p reason type v).2 := by
  apply Outcome.andThen_rel (R := Counts 0) Counts.trans
  · exact onDevice_counts v _
  · intro volstat w _
    dsimp only
    split_ifs
    · exact ⟨rfl, rfl⟩
    · split <;> exact ⟨rfl, rfl⟩

theorem writeDataIndex_full_cases (reason : SyncReason) (v : Volume σ π) :
    ((writeDataIndex C reason .full v).1 = .ok () →
      (writeDataIndex C reason .full v).2.completed = v.completed + 1) ∧
    ((writeDataIndex C reason .full v).1 ≠ .ok () →
      KeepsHeader v (writeDataIndex C reason .full v)) := by
  have henter : KeepsHeader v (enter C .dp reason .full v) :=
    (enter_counts C .dp reason .full v).keepsHeader
  refine Outcome.andThen_elim (motive := fun r : TapeCall (Volume σ π) Unit =>
    (r.1 = .ok () → r.2.completed = v.completed + 1) ∧
      (r.1 ≠ .ok () → KeepsHeader v r)) (fun e w hw => ?_)
    (fun entry w hw => ?_)
  · exact ⟨by simp, fun _ => by simpa [KeepsHeader, hw] using henter⟩
  · rw [hw] at henter
    have htype : entry.2 = .full := by
      obtain ⟨d, -, htype, -⟩ := enter_eq_ok C hw
      simpa [indexTypeOn] using htype
    refine ⟨fun hok => ?_, fun herror => ⟨?_, ?_⟩⟩
    · rw [commit_ok_completed C _ _ _ _ _ hok, henter.2]
    · rw [(commit_error C _ _ _ _ _ herror).header, henter.1]
      simp [IncrementalPastSeek, htype]
    · rw [(commit_error C _ _ _ _ _ herror).completed, henter.2]

end Halves

/-! ## The whole function -/

/-- Without a completed document the call has left the header where it was. -/
def HeaderFollowsDocument {α : Type*} (v : Volume σ π)
    (r : TapeCall (Volume σ π) α) : Prop :=
  v.completed ≤ r.2.completed ∧
    (r.2.completed = v.completed → r.2.header = v.header)

theorem KeepsHeader.headerFollowsDocument {α : Type*} {v : Volume σ π}
    {r : TapeCall (Volume σ π) α} (h : KeepsHeader v r) : HeaderFollowsDocument v r :=
  ⟨h.2.ge, fun _ => h.1⟩

theorem writeDataFirst_headerFollowsDocument (reason : SyncReason)
    (volstat : VolStat) (v : Volume σ π) :
    HeaderFollowsDocument v (writeDataFirst C reason volstat v) := by
  obtain ⟨hok, herror⟩ := writeDataIndex_full_cases C reason (cacheSuspended C v)
  unfold writeDataFirst
  dsimp only
  split
  · rename_i hret
    have hcompleted : _ = v.completed + 1 := hok hret
    constructor
    · exact hcompleted ▸ Nat.le_succ _
    · intro hsame
      exact absurd (hcompleted.symm.trans hsame) (Nat.succ_ne_self _)
  · rename_i e hret
    -- whatever is done about the error, the header is untouched
    have hkeeps := herror (by rw [hret]; simp)
    apply KeepsHeader.headerFollowsDocument
    split_ifs
    · exact hkeeps
    · exact hkeeps
    · refine Outcome.andThen_rel (R := fun v w : Volume σ π =>
        w.header = v.header ∧ w.completed = v.completed)
        (fun huv hvw => ⟨hvw.1.trans huv.1, hvw.2.trans huv.2⟩) ?_ fun _ _ _ => ⟨rfl, rfl⟩
      exact hkeeps
    · exact hkeeps

/-- An incremental index of a changed volume is asked for, and the call gets
past the lock-status read, the read-only check and the seek to the append
position. -/
def IncrementalReachesAppendPosition (p : Part) (reason : SyncReason)
    (type : IndexType) (v : Volume σ π) : Prop :=
  indexTypeOn C p type v = .incremental ∧ ltfsIsDirty v ∧
    ∃ volstat d, tapeGetCartVolumeLockStatus v.device = (.ok volstat, d) ∧
      ((reason = .writePerm ∧
          (tapeSeekAppendPosition p (p = .ip) (armWritePerm p d)).1 = .ok ()) ∨
        (reason ≠ .writePerm ∧ indexReadOnly d = none ∧
          (tapeSeekAppendPosition p (p = .ip) d).1 = .ok ()))

theorem indexTypeOn_ip_ne (type : IndexType) (v : Volume σ π) :
    indexTypeOn C .ip type v ≠ .incremental := by
  unfold indexTypeOn
  dsimp only
  split_ifs with h
  · simp
  · exact fun htype => h ⟨htype, by simp⟩

theorem incrementalPastSeek_iff {p : Part} {reason : SyncReason}
    {type : IndexType} {v w : Volume σ π} {entry : VolStat × IndexType}
    (h : enter C p reason type v = (.ok entry, w)) :
    IncrementalPastSeek p entry.2 w ↔
      IncrementalReachesAppendPosition C p reason type v := by
  obtain ⟨d, hlock, htype, hperm⟩ := enter_eq_ok C h
  unfold IncrementalPastSeek IncrementalReachesAppendPosition
  rw [htype]
  refine and_congr_right fun _ => ?_
  rcases hperm with ⟨hperm, rfl⟩ | ⟨hperm, hwritable, rfl⟩
  · simp [hlock, hperm, ltfsIsDirty, Volume.withDevice]
  · simp [hlock, hperm, hwritable, ltfsIsDirty, Volume.withDevice]

theorem enter_ok_of_reaches {p : Part} {reason : SyncReason} {type : IndexType}
    {v : Volume σ π} (h : IncrementalReachesAppendPosition C p reason type v) :
    ∃ entry w, enter C p reason type v = (.ok entry, w) := by
  obtain ⟨-, -, volstat, d, hlock, hperm⟩ := h
  have hlift : v.onDevice tapeGetCartVolumeLockStatus = (.ok volstat, v.withDevice d) := by
    simp [Volume.onDevice, Outcome.within, hlock]
  rcases hperm with ⟨hperm, -⟩ | ⟨hperm, hwritable, -⟩
  · simp [enter, hlift, hperm]
  · simp [enter, hlift, hperm, hwritable]

/-- A failed `ltfs_write_index` that has completed no document leaves
generation, modification time and all four pointers as they were, exactly
unless it was writing an incremental index of a changed volume and failed
behind the seek to the append position. -/
theorem ltfsWriteIndex_error_keeps_header_iff (p : Part) (reason : SyncReason)
    (type : IndexType) (v : Volume σ π) (e : TapeError)
    (hfail : (ltfsWriteIndex C p reason type v).1 = .error e)
    (hdocument :
      (ltfsWriteIndex C p reason type v).2.completed = v.completed) :
    (ltfsWriteIndex C p reason type v).2.header = v.header ↔
      ¬IncrementalReachesAppendPosition C p reason type v := by
  have henter : KeepsHeader v (enter C p reason type v) :=
    (enter_counts C p reason type v).keepsHeader
  rcases hentered : enter C p reason type v with ⟨_ | entry, w⟩
  · -- nothing has been touched before the read-only check
    rw [hentered] at henter
    have hnot : ¬IncrementalReachesAppendPosition C p reason type v := by
      intro h
      obtain ⟨entry, u, hok⟩ := enter_ok_of_reaches C h
      simp [hentered] at hok
    simpa [ltfsWriteIndex, hentered, hnot] using henter.1
  · rw [hentered] at henter
    by_cases hfirst : dataFirst p reason w
    · have hip : p = .ip := by
        simp only [dataFirst, decide_eq_true_eq] at hfirst
        exact hfirst.1
      have hnot : ¬IncrementalReachesAppendPosition C p reason type v := by
        rintro ⟨htype, -⟩
        exact indexTypeOn_ip_ne C type v (hip ▸ htype)
      simp only [hnot, not_false_eq_true, iff_true]
      obtain ⟨hle, hheader⟩ := writeDataFirst_headerFollowsDocument C reason entry.1 w
      rcases hdata : writeDataFirst C reason entry.1 w with ⟨_ | again, u⟩
      · simp only [ltfsWriteIndex, hentered, Outcome.andThen_ok, hfirst,
          if_true, hdata, Outcome.andThen_error] at hdocument hle hheader ⊢
        rw [hheader (hdocument.trans henter.2.symm), henter.1]
      · simp only [ltfsWriteIndex, hentered, Outcome.andThen_ok, hfirst,
          if_true, hdata] at hfail hdocument hle hheader ⊢
        have herror : (commit C p again.1 again.2 .full u).1 ≠ .ok () := by
          simp [hfail]
        have hfailed := commit_error C _ _ _ _ _ herror
        rw [hfailed.header (by simp [IncrementalPastSeek]),
          hheader (by rw [← hfailed.completed, hdocument, henter.2]), henter.1]
    · simp only [ltfsWriteIndex, hentered, Outcome.andThen_ok, hfirst,
        Bool.false_eq_true, if_false] at hfail ⊢
      rw [← incrementalPastSeek_iff C hentered, ← henter.1]
      exact (commit_error C _ _ _ _ _ (by simp [hfail])).header_iff

/-! ## A changed volume whose drive refuses the leading file mark -/

/-- A tree that is nothing but its number of journal entries, with one-block
documents. -/
def countCatalog : Catalog ℕ ℕ where
  journalErr _ := false
  journalCount n := n
  incjClear _ := 0
  schema _ n := [n]
  afterSchema _ n := n
  incSchema _ n := [n]
  afterIncSchema _ _ := 0

/-- A changed volume at format version 2.5.0 whose drive answers the lock
status and the locate and fails everything after. -/
def markRefused : Volume ℕ ℕ where
  device :=
    { medium := fun _ => [.filemark, .block 0, .filemark]
      position := ⟨.dp, 3⟩
      appendPos := fun p => match p with
        | .ip => 1
        | .dp => 0
      partitionSpace := fun _ => .writable
      writeProtected := false
      writeError := false
      appendOnlyMode := false
      isReadonly := false
      isWorm := false
      volStat := .unlocked
      answers := fun n => if n < 2 then .done .clear
        else .failed .writePerm .untouched
      issued := 0
      history := [] }
  header := ⟨7, ⟨1000, 0⟩, ⟨some .dp, 1⟩, ⟨none, 0⟩, ⟨none, 0⟩, ⟨none, 0⟩⟩
  tree := 1
  ipIndexFileEnd := true
  dpIndexFileEnd := true
  dirty := true
  incDirty := true
  atimeDirty := false
  useAtime := false
  writeVersion := 20500
  fullIndexInterval := 0
  fullIndexToGo := 0
  revalFailed := false
  indexCachePathW := false
  cacheAnswers := fun _ => true
  cacheIssued := 0
  clock := fun n => ⟨2000 + n, 0⟩
  ticks := 0
  completed := 0

/-- The generation stays raised although no document was written. -/
theorem ltfsWriteIndex_loses_generation :
    ¬∀ (p : Part) (reason : SyncReason) (type : IndexType) (v : Volume ℕ ℕ)
      (e : TapeError),
      (ltfsWriteIndex countCatalog p reason type v).1 = .error e →
      (ltfsWriteIndex countCatalog p reason type v).2.completed =
        v.completed →
      (ltfsWriteIndex countCatalog p reason type v).2.header = v.header := by
  intro h
  have hheader := h .dp .ea .incremental markRefused .writePerm rfl rfl
  exact absurd (congrArg Header.generation hheader) (by decide)

/-- The same drive leaves the header alone when a full index is asked for. -/
theorem ltfsWriteIndex_error_keeps_header_full :
    (ltfsWriteIndex countCatalog .dp .ea .full markRefused).2.header =
      markRefused.header :=
  (ltfsWriteIndex_error_keeps_header_iff countCatalog .dp .ea .full markRefused
    .writePerm rfl rfl).2 fun h => by
      obtain ⟨htype, -⟩ := h
      exact absurd htype (by decide)

end AuroraLtfs.Index
