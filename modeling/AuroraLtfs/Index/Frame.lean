import AuroraLtfs.Index.Atomicity
import AuroraLtfs.Tape.Writes

/-!
# What an index write leaves alone

An index write, successful or not, keeps every record below the append
positions it started from.  On the index partition a successful write moves the
append position back to the file mark in front of the new index, which is where
the write began.
-/

namespace AuroraLtfs.Index

open AuroraLtfs.Tape

variable {σ π : Type*} (C : Catalog σ π)

/-- The call keeps every record below the append positions. -/
def KeepsTape {α : Type*} (v : Volume σ π) (r : TapeCall (Volume σ π) α) : Prop :=
  v.device.Sane → v.device.Grows r.2.device

theorem KeepsTape.andThen {α β : Type*} {v : Volume σ π} {r : TapeCall (Volume σ π) α}
    {next : α → Volume σ π → TapeCall (Volume σ π) β} (hr : KeepsTape v r)
    (hnext : ∀ a w, r = (.ok a, w) → KeepsTape w (next a w)) :
    KeepsTape v (r.andThen next) := by
  intro hsane
  apply Outcome.andThen_rel
    (R := fun v w : Volume σ π => v.device.Grows w.device) Device.Grows.trans
  · exact hr hsane
  · intro a w hw
    have hgrows := hr hsane
    rw [hw] at hgrows
    exact hnext a w hw hgrows.sane

section Steps

variable {v : Volume σ π}

theorem onDevice_keepsTape {α : Type*} {call : Device π → TapeCall (Device π) α}
    (hmedium : (call v.device).2.medium = v.device.medium)
    (happend : (call v.device).2.appendPos = v.device.appendPos) :
    KeepsTape v (v.onDevice call) := by
  intro hsane
  exact .of_eq hsane hmedium happend

theorem lockStatus_frame (d : Device π) :
    (tapeGetCartVolumeLockStatus d).2.medium = d.medium ∧
      (tapeGetCartVolumeLockStatus d).2.appendPos = d.appendPos := by
  rw [tapeGetCartVolumeLockStatus]
  cases d.answer <;> simp

theorem setLockStatus_frame (status : VolStat) (d : Device π) :
    (tapeSetCartVolumeLockStatus status d).2.medium = d.medium ∧
      (tapeSetCartVolumeLockStatus status d).2.appendPos = d.appendPos := by
  have hread := lockStatus_frame d
  rw [tapeSetCartVolumeLockStatus]
  dsimp only
  split_ifs
  · exact hread
  · exact hread
  · cases (tapeGetCartVolumeLockStatus d).2.answer <;> simpa using hread

theorem restoreWriteError_frame (reason : SyncReason) (v : Volume σ π) :
    (restoreWriteError reason v).device.medium = v.device.medium ∧
      (restoreWriteError reason v).device.appendPos = v.device.appendPos := by
  rw [restoreWriteError]
  split_ifs <;> exact ⟨rfl, rfl⟩

theorem outWritePerm_grows {d : Device π} {p : Part} {reason : SyncReason}
    {volstat : VolStat} {updateVollock : Bool} {ret : Except TapeError Unit}
    (hgrows : d.Grows v.device) :
    d.Grows (outWritePerm p reason volstat updateVollock ret v).2.device := by
  obtain ⟨hmedium, happend⟩ := restoreWriteError_frame reason v
  have hrestored : d.Grows (restoreWriteError reason v).device :=
    hgrows.trans (.of_eq hgrows.sane hmedium happend)
  rw [outWritePerm]
  split
  · exact hrestored
  · rename_i status _
    obtain ⟨hmedium', happend'⟩ := setLockStatus_frame status
      (restoreWriteError reason v).device
    apply hrestored.trans
    apply Outcome.andThen_rel
      (R := fun v w : Volume σ π => v.device.Grows w.device)
      Device.Grows.trans
    · exact .of_eq hrestored.sane hmedium' happend'
    · intro a w hw
      obtain ⟨last, hlast, rfl⟩ := Outcome.within_eq hw
      rw [hlast] at hmedium' happend'
      exact .refl (Device.Grows.of_eq hrestored.sane hmedium' happend').sane

end Steps

/-! ## The records of a document -/

/-- The call is made at the append position of `p` and writes `rs` there. -/
def RecordsAt {α : Type*} (p : Part) (rs : List (Record π)) (v : Volume σ π)
    (r : TapeCall (Volume σ π) α) : Prop :=
  v.device.Sane → v.device.AtAppend p →
    Writes p rs v.device (∃ a, r.1 = .ok a) r.2.device

section Steps

variable {α β : Type*} {p : Part} {rs more : List (Record π)} {v : Volume σ π}

theorem RecordsAt.andThen {r : TapeCall (Volume σ π) α}
    {next : α → Volume σ π → TapeCall (Volume σ π) β} (hr : RecordsAt p rs v r)
    (hnext : ∀ a w, r = (.ok a, w) → RecordsAt p more w (next a w)) :
    RecordsAt p (rs ++ more) v (r.andThen next) := by
  intro hsane hat
  have hfirst := hr hsane hat
  apply Outcome.andThen_elim (motive := fun x : TapeCall (Volume σ π) β =>
    Writes p (rs ++ more) v.device (∃ b, x.1 = .ok b) x.2.device)
  · intro e w hw
    rw [hw] at hfirst
    exact ((hfirst.congr False.elim).append more).congr (by rintro ⟨b, hb⟩; simp at hb)
  · intro a w hw
    rw [hw] at hfirst
    have hdone : Writes p rs v.device True w.device := hfirst.congr fun _ => ⟨a, rfl⟩
    obtain ⟨-, hat', -⟩ := hdone.done trivial
    exact hdone.trans hsane (hnext a w hw hdone.grows.sane hat')

theorem RecordsAt.pure {w : Volume σ π} (a : α) (hdevice : w.device = v.device) :
    RecordsAt p [] v ((.ok a, w) : TapeCall _ α) := by
  intro hsane hat
  dsimp only
  rw [hdevice]
  exact .rests hsane rfl rfl rfl hat

theorem onDevice_filemark_recordsAt (count : ℕ) (ignoreLess ignoreNospc immed : Bool) :
    RecordsAt p (List.replicate count .filemark) v
      (v.onDevice (tapeWriteFilemark count ignoreLess ignoreNospc immed)) := by
  intro hsane hat
  apply (tapeWriteFilemark_writes hsane hat count ignoreLess ignoreNospc immed).congr
  rintro ⟨a, ha⟩
  exact ha

theorem onDevice_write_recordsAt (payload : π) (ignoreLess ignoreNospc : Bool) :
    RecordsAt p [.block payload] v
      (v.onDevice (tapeWrite payload ignoreLess ignoreNospc)) := by
  intro hsane hat
  apply (tapeWrite_writes hsane hat payload ignoreLess ignoreNospc).congr
  rintro ⟨a, ha⟩
  exact ha

theorem cacheWrite_recordsAt : RecordsAt p [] v (cacheWrite v) := by
  intro hsane hat
  have hdevice : (cacheWrite v).2.device = v.device := by
    rw [cacheWrite]
    split_ifs <;> rfl
  rw [hdevice]
  exact .rests hsane rfl rfl rfl hat

theorem xmlOutput_recordsAt (payloads : List π) (s : ℕ × Volume σ π) :
    RecordsAt p (blocks payloads) s.2 ((xmlOutput payloads s).within Prod.snd) := by
  induction payloads generalizing s with
  | nil => exact .pure () rfl
  | cons b bs ih =>
    obtain ⟨n, v⟩ := s
    have hblock : RecordsAt p [.block b] v
        ((v.onDevice (tapeWrite b true true)).andThen fun _ v => cacheWrite v) :=
      (onDevice_write_recordsAt b true true).andThen
        fun _ _ _ => cacheWrite_recordsAt
    have hstep : (xmlOutput (b :: bs) (n, v)).within Prod.snd =
        ((v.onDevice (tapeWrite b true true)).andThen
          fun _ v => cacheWrite v).andThen
            fun _ w => (xmlOutput bs (n + 1, w)).within Prod.snd := by
      rw [xmlOutput]
      cases (v.onDevice (tapeWrite b true true)).andThen
          fun _ v => cacheWrite v with
      | mk result w => cases result <;> rfl
    rw [hstep]
    exact hblock.andThen fun _ w _ => ih (n + 1, w)

theorem xmlSchemaToTape_recordsAt (reason : SyncReason) (type : IndexType) :
    RecordsAt p (blocks (document C type v) ++ [.filemark]) v
      (xmlSchemaToTape C reason type v) := by
  intro hsane hat
  have hout := xmlOutput_recordsAt (document C type v) (0, v) hsane hat
  rw [xmlSchemaToTape]
  generalize xmlOutput (document C type v) (0, v) = r at hout ⊢
  obtain ⟨e | _, n, w⟩ := r
  · exact ((hout.congr False.elim).append _).congr (by rintro ⟨a, ha⟩; simp at ha)
  · have hdone : Writes p (blocks (document C type v)) v.device True w.device :=
      hout.congr fun _ => ⟨(), rfl⟩
    obtain ⟨-, hat', -⟩ := hdone.done trivial
    have hmark : RecordsAt p [.filemark]
        (w.withTree (afterDocument C type none w.tree))
        (((w.withTree (afterDocument C type none w.tree)).onDevice
          (tapeWriteFilemark 1 true true (reason = .format))).andThen
            fun _ w => (.ok (), { w with completed := w.completed + 1 })) :=
      (onDevice_filemark_recordsAt 1 true true _).andThen
        fun _ _ _ => .pure () rfl
    exact hdone.trans hsane (hmark hdone.grows.sane hat')

theorem flushData_recordsAt (q : Part) : RecordsAt p [] v (flushData q v) := by
  rw [flushData]
  split_ifs
  · exact onDevice_filemark_recordsAt 0 true true false
  · exact .pure () rfl

end Steps

theorem document_congr (type : IndexType) {v w : Volume σ π}
    (hheader : w.header = v.header) (htree : w.tree = v.tree) :
    document C type w = document C type v := by
  cases type <;> simp only [document, hheader, htree]

theorem flushData_header_tree (p : Part) (v : Volume σ π) :
    (flushData p v).2.header = v.header ∧ (flushData p v).2.tree = v.tree := by
  rw [flushData]
  split_ifs <;> exact ⟨rfl, rfl⟩

/-- A document between its two file marks. -/
def framed (payloads : List π) : List (Record π) :=
  .filemark :: (blocks payloads ++ [.filemark])

theorem writeDocument_recordsAt (p : Part) (reason : SyncReason)
    (type : IndexType) (v : Volume σ π) :
    RecordsAt p (framed (document C type v)) v (writeDocument C p reason type v) := by
  obtain ⟨hheader, htree⟩ := flushData_header_tree p v
  have hflush : RecordsAt p [] v (flushData p v) := flushData_recordsAt p
  apply hflush.andThen
  intro _ w hw
  rw [hw] at hheader htree
  have hmark : RecordsAt p [.filemark] w
      (w.onDevice (tapeWriteFilemark 1 true true true)) :=
    onDevice_filemark_recordsAt 1 true true true
  apply hmark.andThen
  intro _ u hu
  have hsame : document C type u = document C type v := by
    obtain ⟨d, -, rfl⟩ := Outcome.within_eq hu
    exact document_congr C type hheader htree
  rw [← hsame]
  exact xmlSchemaToTape_recordsAt C reason type

/-! ## The whole function -/

section Whole

variable (p : Part) (reason : SyncReason) (type : IndexType)

theorem tapeSetIpAppendPosition_frame (block : ℕ) (d : Device π) :
    (tapeSetIpAppendPosition block d).medium = d.medium ∧
      (tapeSetIpAppendPosition block d).appendPos .dp = d.appendPos .dp ∧
      ((tapeSetIpAppendPosition block d).appendPos .ip = block ∨
        (tapeSetIpAppendPosition block d).appendPos .ip = 0) := by
  rw [tapeSetIpAppendPosition]
  cases d.answer with
  | failed e residue => simp [Device.setAppendPos_other]
  | done warning =>
    refine ⟨by simp, by simp [Device.setAppendPos_other], ?_⟩
    by_cases hworm : d.isWorm <;> simp [hworm]

/-- Moving the append position of the index partition back to where the write
started still keeps everything the write has kept. -/
theorem Grows_setIpAppendPosition {d next : Device π} {block : ℕ}
    (hgrows : d.Grows next) (hblock : block = d.appendEnd .ip) :
    d.Grows (tapeSetIpAppendPosition block next) := by
  obtain ⟨hmedium, hdp, hip⟩ := tapeSetIpAppendPosition_frame block next
  have hle := Device.appendEnd_le_length hgrows.sane
  have hlength : d.appendEnd .ip ≤ (next.medium .ip).length :=
    (hgrows.appendEnd_le .ip).trans (hle .ip)
  refine ⟨?_, ?_, ?_⟩
  · intro q
    cases q with
    | ip =>
      rw [hmedium]
      rcases hip with hip | hip <;> omega
    | dp =>
      rw [hmedium, hdp]
      exact hgrows.sane .dp
  · intro q
    cases q with
    | ip =>
      by_cases hzero : (tapeSetIpAppendPosition block next).appendPos .ip = 0
      · have hend : (tapeSetIpAppendPosition block next).appendEnd .ip =
            (next.medium .ip).length := by
          simp [Device.appendEnd, hzero, hmedium]
        rw [hend]
        exact hlength
      · have hend : (tapeSetIpAppendPosition block next).appendEnd .ip =
            (tapeSetIpAppendPosition block next).appendPos .ip := by
          simp [Device.appendEnd, hzero]
        rw [hend]
        rcases hip with hip | hip <;> omega
    | dp =>
      have hsame : (tapeSetIpAppendPosition block next).appendEnd .dp =
          next.appendEnd .dp := by
        simp [Device.appendEnd, hmedium, hdp]
      rw [hsame]
      exact hgrows.appendEnd_le .dp
  · intro q i hi
    rw [hmedium]
    exact hgrows.kept q i hi

theorem settle_device_full (htype : type ≠ .incremental) (v : Volume σ π) :
    (settle C p type v).device = match p with
      | .ip => tapeSetIpAppendPosition (v.header.selfptr.block - 1) v.device
      | .dp => v.device := by
  cases type with
  | incremental => exact absurd rfl htype
  | full | auto => cases p <;> rfl

theorem settle_device_incremental (v : Volume σ π) :
    (settle C p .incremental v).device = v.device := rfl

theorem prepared_selfptr (htype : type ≠ .incremental) (d : Device π) (v : Volume σ π) :
    (prepared type d v).header.selfptr =
      ⟨some d.position.partition, d.position.block + 1⟩ := by
  cases type with
  | incremental => exact absurd rfl htype
  | full | auto => rfl

theorem commit_keepsTape (volstat : VolStat) (v : Volume σ π) :
    KeepsTape v (commit C p reason volstat type v) := by
  intro hsane
  have hseek : ∀ r d, tapeSeekAppendPosition p (p = .ip) v.device = (r, d) →
      v.device.Grows d := by
    intro r d h
    obtain ⟨hmedium, hends, hsane', -⟩ := tapeSeekAppendPosition_spec h
    refine ⟨hsane' hsane, fun q => (hends q).ge, ?_⟩
    intro q i _
    rw [hmedium]
  rcases commit_cases C p reason volstat type v with
    ⟨e, d, hd, h⟩ | ⟨d, e, w, hd, hdoc, h⟩ | ⟨d, w, hd, hdoc, h⟩
  · rw [h]
    have hgrows := hseek _ d hd
    exact outWritePerm_grows hgrows
  · rw [h]
    have hgrows := hseek _ d hd
    obtain ⟨-, -, -, hat⟩ := tapeSeekAppendPosition_spec hd
    have hdocument := (writeDocument_recordsAt C p reason type
      (prepared type d v) hgrows.sane (hat rfl)).grows
    rw [hdoc] at hdocument
    exact outWritePerm_grows (hgrows.trans hdocument)
  · rw [h]
    have hgrows := hseek _ d hd
    obtain ⟨-, hends, -, hat⟩ := tapeSeekAppendPosition_spec hd
    have hposition : d.position = ⟨p, d.appendEnd p⟩ := hat rfl
    have hdocument := (writeDocument_recordsAt C p reason type
      (prepared type d v) hgrows.sane (hat rfl)).grows
    have hheader := (writeDocument_countsDocument C p reason type
      (prepared type d v)).onTape.header_eq
    rw [hdoc] at hdocument hheader
    have hall : v.device.Grows w.device := hgrows.trans hdocument
    obtain ⟨hmedium, happend⟩ := restoreWriteError_frame reason (settle C p type w)
    have hsettled : v.device.Grows (settle C p type w).device := by
      by_cases htype : type = .incremental
      · subst htype
        rwa [settle_device_incremental]
      · rw [settle_device_full C p type htype]
        cases p with
        | dp => exact hall
        | ip =>
          apply Grows_setIpAppendPosition hall
          rw [hheader, prepared_selfptr type htype, hposition, ← hends .ip]
          rfl
    exact hsettled.trans (.of_eq hsettled.sane hmedium happend)

theorem enter_keepsTape (v : Volume σ π) : KeepsTape v (enter C p reason type v) := by
  apply KeepsTape.andThen
  · obtain ⟨hmedium, happend⟩ := lockStatus_frame v.device
    exact onDevice_keepsTape hmedium happend
  · intro volstat w _ hsane
    dsimp only
    split_ifs
    · exact (Device.Grows.forget hsane p).trans
        (.of_eq (Device.Grows.forget hsane p).sane rfl rfl)
    · split <;> exact .refl hsane

theorem writeDataIndex_keepsTape (v : Volume σ π) :
    KeepsTape v (writeDataIndex C reason type v) :=
  (enter_keepsTape C .dp reason type v).andThen fun _ _ _ =>
    commit_keepsTape C .dp reason _ _ _

theorem writeDataFirst_keepsTape (volstat : VolStat) (v : Volume σ π) :
    KeepsTape v (writeDataFirst C reason volstat v) := by
  intro hsane
  have hdata := writeDataIndex_keepsTape C reason .full (cacheSuspended C v) hsane
  rw [writeDataFirst]
  dsimp only
  split
  · exact hdata
  · split_ifs
    · exact hdata
    · exact hdata
    · refine hdata.trans (KeepsTape.andThen ?_ ?_ hdata.sane)
      · obtain ⟨hmedium, happend⟩ := lockStatus_frame (writeDataIndex C reason
          .full (cacheSuspended C v)).2.device
        exact onDevice_keepsTape hmedium happend
      · intro volstat w _ hsane'
        exact (Device.Grows.forget hsane' .ip).trans
          (.of_eq (Device.Grows.forget hsane' .ip).sane rfl rfl)
    · exact hdata

theorem ltfsWriteIndex_keepsTape (v : Volume σ π) :
    KeepsTape v (ltfsWriteIndex C p reason type v) := by
  apply (enter_keepsTape C p reason type v).andThen
  intro entry w _
  split_ifs
  · exact (writeDataFirst_keepsTape C reason entry.1 w).andThen
      fun _ _ _ => commit_keepsTape C p _ _ _ _
  · exact commit_keepsTape C p reason entry.2 entry.1 w

theorem ltfsWriteIndexConditional_keepsTape (v : Volume σ π) :
    KeepsTape v (ltfsWriteIndexConditional C p v) := by
  simp only [ltfsWriteIndexConditional]
  split_ifs
  · exact ltfsWriteIndex_keepsTape C p .cachePressure .full v
  · exact fun hsane => .refl hsane

end Whole

end AuroraLtfs.Index
