import AuroraLtfs.Sched.FileSpec

/-!
# Writing out keeps the file

A flush, the background work on the two queues and a close hand down bytes of the
file only.  They keep the file if they succeed, and without tape errors in any
case.  Whatever the tape does, they leave private data that shows some file over
what libltfs has of it, and nothing that libltfs had of the file is lost.
-/

namespace AuroraLtfs.Sched

open AuroraLtfs.Tape
open AuroraLtfs.Index
open AuroraLtfs.Raw
open RequestState

variable {σ β : Type*} [Zero β]

/-- What a step that writes out requests leaves. -/
structure Keeps (m : Mount) (k : ℕ) (f : SparseFile β) (s : State σ β)
    (r : TapeCall (State σ β) Unit) : Prop where
  handed : HandsOver f.fill s r.2
  inv : r.1 = .ok () ∨ Ready s.raw → Kept m k f r.2
  ready : Ready s.raw → Ready r.2.raw
  grows : s.raw.vol.device.Grows r.2.raw.vol.device
  covers : ∀ x, ((cellsOf m.blockSize s.fileState).byte x).isSome →
    ((cellsOf m.blockSize r.2.fileState).byte x).isSome
  intact : FileOk s → FileOk r.2 ∧ ∃ k' ≤ k, ∃ g, PaddedInv m k' g r.2

section WriteError

variable {m : Mount} {k : ℕ} {f : SparseFile β} {s t : State σ β}
  {p : DentryPriv β}

theorem Keeps.refl (h : PaddedInv m k f s) (ret : Except TapeError Unit) :
    Keeps m k f s (ret, s) :=
  ⟨.of_eq rfl, fun _ => h.kept, id, .refl h.sound.sane, fun _ => id,
    fun hok => ⟨hok, k, le_rfl, f, h⟩⟩

/-- The handler of write errors leaves private data that shows some file.  No
byte is lost if it drops nothing that has still to be written. -/
theorem handleWriteError_shows (hsound : SoundFile m.blockSize t.fileState)
    (h : ListInv m.cacheSize ((cellsOf m.blockSize t.fileState).pad k) f
      p.requests p.fileSize) (hbound : f.size ≤ 2 ^ 63) (ret : Option TapeError)
    (failedIp : Bool) :
    ∃ g, FileInv m g (t.withPriv (unifiedHandleWriteError ret failedIp
        t.raw.vol.device t.file.dentry p)) ∧
      (failedIp ∧ ret.any outOfSpace ∧ tapeReadOnly .dp t.raw.vol.device = .ok () →
        ∀ x, (f.byte x).isSome → (g.byte x).isSome) := by
  obtain ⟨g, hsize, hlist, hkept⟩ := h.keepSome fun r =>
    ¬((r.IsIp ∧ (failedIp ∨ ¬ret.any outOfSpace ∨
        tapeReadOnly .ip t.raw.vol.device ≠ .ok ())) ∨
      (¬r.IsIp ∧ (¬failedIp ∨ ¬ret.any outOfSpace ∨
        tapeReadOnly .dp t.raw.vol.device ≠ .ok ())))
  refine ⟨g, ⟨hsound, hlist, hsize.trans hbound⟩, ?_⟩
  rintro ⟨hip, hfull, hwritable⟩
  apply hkept
  intro r _ hnot
  simp [hnot, hip, hfull, hwritable]

omit [Zero β] in
theorem unifiedGetWriteError_eq_ok (hp : s.file.ioschedPriv = some p)
    (hnone : p.writeError = none) : unifiedGetWriteError s = (.ok (), s) := by
  simp only [unifiedGetWriteError, hp, hnone]

omit [Zero β] in
theorem unifiedGetWriteError_eq_error {e : TapeError}
    (hp : s.file.ioschedPriv = some p) (hsome : p.writeError = some e) :
    unifiedGetWriteError s =
      (.error e, s.withPriv { p with writeError := none }) := by
  simp only [unifiedGetWriteError, hp, hsome]

omit [Zero β] in
theorem unifiedGetWriteError_file (s : State σ β) :
    (unifiedGetWriteError s).2 = { s with file := { s.file with
      ioschedPriv := s.file.ioschedPriv.map
        fun p => { p with writeError := none } } } := by
  obtain ⟨raw, ⟨dentry, priv, named, deleted, numhandles⟩, handed⟩ := s
  cases priv with
  | none => rfl
  | some p =>
    obtain ⟨requests, fileSize, writeIp, writeError, altExtentlist, extLinks⟩ := p
    cases writeError <;> rfl

omit [Zero β] in
/-- Reading the write error changes nothing else. -/
theorem unifiedGetWriteError_unmoved (s : State σ β) :
    Unmoved s (unifiedGetWriteError s).2 := by
  rw [unifiedGetWriteError_file]
  refine ⟨rfl, rfl, ?_, ?_, fun hok q hq => ?_⟩
  · simp only [File.requests]
    cases s.file.ioschedPriv <;> rfl
  · simp only [File.fileSize]
    cases s.file.ioschedPriv <;> rfl
  · obtain ⟨p, hp, rfl⟩ := Option.map_eq_some_iff.1 hq
    exact (hok p hp).forgetError

omit [Zero β] in
/-- A walk that failed leaves a write error. -/
theorem getWriteError_endSweep {e : TapeError} {w : Sweep σ β} :
    (unifiedGetWriteError (endSweep p (.error e) w)).1 ≠ .ok () := by
  cases hp : p.writeError with
  | none => simp [unifiedGetWriteError, endSweep, unifiedHandleWriteError,
      State.withPriv, hp]
  | some e => simp [unifiedGetWriteError, endSweep, unifiedHandleWriteError,
      State.withPriv, hp]

/-- The private data may change behind a step that keeps the file. -/
theorem Keeps.andThen {r : TapeCall (State σ β) Unit} (h : Keeps m k f s r)
    {ret : Except TapeError Unit} (hret : ret = .ok () → r.1 = .ok ())
    (hraw : t.raw = r.2.raw) (hhanded : t.handed = r.2.handed)
    (hdentry : t.file.dentry = r.2.file.dentry)
    (hinv : ∀ k' ≤ k, ∀ g, PaddedInv m k' g r.2 → Kept m k' g t)
    (hok : (∃ k' ≤ k, ∃ g, PaddedInv m k' g r.2) → FileOk r.2 → FileOk t) :
    Keeps m k f s (ret, t) where
  handed := h.handed.trans (.of_eq hhanded)
  inv := fun hor => (h.inv (hor.imp_left hret)).trans hinv
  ready := fun hready => hraw ▸ h.ready hready
  grows := hraw ▸ h.grows
  covers := by
    have hsame : t.fileState = r.2.fileState := Prod.ext hraw hdentry
    intro x hx
    dsimp only
    rw [hsame]
    exact h.covers x hx
  intact := by
    intro hs
    obtain ⟨hfile, k', hle, g, hg⟩ := h.intact hs
    obtain ⟨k'', hle', g', hg', -⟩ := hinv k' hle g hg
    exact ⟨hok ⟨k', hle, g, hg⟩ hfile, k'', hle'.trans hle, g', hg'⟩

/-- So may the write error be read. -/
theorem Keeps.getWriteError {r : TapeCall (State σ β) Unit} (h : Keeps m k f s r)
    (ret : Except TapeError Unit) (hret : ret = .ok () → r.1 = .ok ()) :
    Keeps m k f s (ret, (unifiedGetWriteError r.2).2) := by
  have hmoved := unifiedGetWriteError_unmoved r.2
  have hsame := hmoved.fileState
  exact h.andThen hret (congrArg Prod.fst hsame) hmoved.handed
    (congrArg Prod.snd hsame) (fun _ _ _ hg => (hg.unmoved hmoved).kept)
    fun _ => hmoved.priv

end WriteError

section WriteOut

variable (C : Catalog σ (List β)) {m : Mount} {k : ℕ} {f : SparseFile β}
  {s t : State σ β} {p : DentryPriv β} {w : Sweep σ β}

/-- A walk over the requests of the file starts with the invariant. -/
theorem PaddedInv.startSweep (h : PaddedInv m k f s)
    (hp : s.file.ioschedPriv = some p) : SweepInv m k f s (startSweep p s) p.requests :=
  ⟨h.sound, h.privList hp, by simp [Sched.startSweep], h.bound, .of_eq rfl,
    .refl h.sound.sane, fun _ => id⟩

omit [Zero β] in
theorem endSweep_raw (ret : Except TapeError Unit) (w : Sweep σ β) :
    (endSweep p ret w).raw = w.state.raw ∧
      (endSweep p ret w).handed = w.state.handed := by
  cases ret <;> exact ⟨rfl, rfl⟩

/-- The file after a walk that has sent everything.  An error is handled. -/
theorem Swept.keeps {ret : Except TapeError Unit} {writeIp : Bool}
    (h : Swept m k f s writeIp (startSweep p s) (ret, w)) (hip : writeIp = true)
    (hpriv : FileOk s → PrivOk (sweptPriv p w)) :
    Keeps m k f s (ret, endSweep p ret w) := by
  have hlist := h.inv.list
  rw [List.append_nil, Sweep.below, h.detached hip, putAll_nil] at hlist
  have hend := endSweep_raw (p := p) ret w
  refine ⟨h.inv.handed.trans (.of_eq hend.2), ?_, ?_, ?_, ?_, ?_⟩
  · intro hor
    obtain rfl : ret = .ok () := hor.elim id fun hready => (h.ready hready).1
    exact PaddedInv.kept ⟨h.inv.sound, hlist, h.inv.bound⟩
  · intro hready
    dsimp only
    rw [hend.1]
    exact (h.ready hready).2
  · dsimp only
    rw [hend.1]
    exact h.inv.grows
  · cases ret <;> exact h.inv.covers
  · intro hok
    cases ret with
    | ok x =>
      exact ⟨.withPriv (hpriv hok), k, le_rfl, f, h.inv.sound, hlist, h.inv.bound⟩
    | error e =>
      obtain ⟨g, hg, -⟩ := handleWriteError_shows (p := sweptPriv p w)
        h.inv.sound hlist h.inv.bound (some e) false
      exact ⟨.withPriv ((hpriv hok).handle ..), 0, k.zero_le, g, paddedInv_zero.2 hg⟩

theorem unifiedFlushUnlocked_spec (h : PaddedInv m k f s) :
    Keeps m k f s (unifiedFlushUnlocked C m s) := by
  rw [unifiedFlushUnlocked]
  cases hp : s.file.ioschedPriv with
  | none => exact .refl h _
  | some p =>
    dsimp only
    cases he : p.writeError with
    | some e =>
      have hread := (Keeps.refl h (.ok ())).getWriteError (.error e) fun _ => rfl
      dsimp only at hread
      rw [unifiedGetWriteError_eq_error hp he] at hread ⊢
      exact hread
    | none =>
      rw [unifiedGetWriteError_eq_ok hp he, Outcome.andThen_ok]
      by_cases hempty : p.requests = []
      · rw [if_pos hempty]
        exact .refl h _
      rw [if_neg hempty]
      have hswept := flushRequests_spec C p.writeIp p.requests
        (PaddedInv.startSweep h hp) rfl
      have hpriv := fun hok : FileOk s => (hok p hp).flush C (m := m) he s
      generalize flushRequests C m p.writeIp p.requests (startSweep p s) = walked
        at hswept hpriv ⊢
      obtain ⟨ret, w⟩ := walked
      apply (hswept.keeps rfl hpriv).getWriteError
      intro hok
      cases ret with
      | ok x => rfl
      | error e => exact absurd hok getWriteError_endSweep

/-- What taking requests out of the list leaves: together with what has been
taken the file is as it was. -/
structure Taken (m : Mount) (f : SparseFile β) (s : State σ β)
    (r : TapeCall (List (WriteRequest β) × State σ β) Unit) : Prop where
  handed : HandsOver f.fill s r.2.2
  requests : ∀ t ∈ r.2.1, 0 < t.count ∧ t.stop ≤ 2 ^ 63 ∧
    t.data = f.fill.read t.offset t.data.length
  inv : r.1 = .ok () ∨ Ready s.raw →
    FileInvOver m (putAll r.2.1 (cellsOf m.blockSize r.2.2.fileState)) f r.2.2
  ready : Ready s.raw → r.1 = .ok () ∧ Ready r.2.2.raw
  grows : s.raw.vol.device.Grows r.2.2.raw.vol.device
  covers : ∀ x, ((cellsOf m.blockSize s.fileState).byte x).isSome →
    ((cellsOf m.blockSize r.2.2.fileState).byte x).isSome
  intact : FileOk s → FileOk r.2.2 ∧
    (r.2.1 ≠ [] → ∀ t ∈ r.2.2.file.requests, ¬t.IsIp) ∧
    ∃ g, FileInvOver m (putAll r.2.1 (cellsOf m.blockSize r.2.2.fileState)) g r.2.2

theorem takeRequests_spec (queue : RequestState) (h : FileInv m f s) :
    Taken m f s (takeRequests C m queue s) := by
  rw [takeRequests]
  cases hp : s.file.ioschedPriv with
  | none => exact ⟨.of_eq rfl, by simp, fun _ => h, fun hready => ⟨rfl, hready⟩,
      .refl h.sound.sane, fun _ => id, fun hok => ⟨hok, by simp, f, h⟩⟩
  | some p =>
    have hswept := processRequests_spec C queue p.writeIp p.requests
      (PaddedInv.startSweep (paddedInv_zero.2 h) hp) fun _ => rfl
    have hpriv := fun hok : FileOk s => (hok p hp).process C (m := m) queue s
    have hok := processRequests_ok C (m := m) (w := startSweep p s) queue p.requests
    dsimp only
    cases hip : p.writeIp with
    | true =>
      rw [hip] at hswept hpriv
      generalize processRequests C m queue true p.requests (startSweep p s) =
        walked at hswept hpriv ⊢
      obtain ⟨ret, w⟩ := walked
      -- nothing was taken out of the list
      have hnone : w.detached = [] := hswept.detached rfl
      have hkeeps := hswept.keeps rfl hpriv
      dsimp only
      rw [hnone]
      refine ⟨hkeeps.handed, by simp, fun hor => (hkeeps.inv hor).fileInv,
        fun hready => ⟨(hswept.ready hready).1, hkeeps.ready hready⟩, hkeeps.grows,
        hkeeps.covers, fun hfile => ?_⟩
      obtain ⟨hfile', k', hle, g, hg⟩ := hkeeps.intact hfile
      obtain rfl : k' = 0 := by omega
      exact ⟨hfile', by simp, g, paddedInv_zero.1 hg⟩
    | false =>
      rw [hip] at hswept hpriv
      generalize processRequests C m queue false p.requests (startSweep p s) =
        walked at hswept hpriv hok ⊢
      obtain ⟨ret, w⟩ := walked
      obtain rfl : ret = .ok () := hok
      have hlist := hswept.inv.list
      rw [List.append_nil, Sweep.below, ByteFile.pad_zero] at hlist
      have hinv : FileInvOver m
          (putAll w.detached (cellsOf m.blockSize (endSweep p (.ok ()) w).fileState))
          f (endSweep p (.ok ()) w) := ⟨hswept.inv.sound, hlist, hswept.inv.bound⟩
      exact ⟨hswept.inv.handed, hswept.inv.detached, fun _ => hinv, hswept.ready,
        hswept.inv.grows, hswept.inv.covers, fun hfile => ⟨.withPriv (hpriv hfile),
          fun _ => (hpriv hfile).placed hip, f, hinv⟩⟩

end WriteOut

section IndexQueue

variable (C : Catalog σ (List β)) {m : Mount} {f : SparseFile β}
  {s t : State σ β} {p : DentryPriv β}

omit [Zero β] in
/-- Recording a write error leaves the tape as it is. -/
theorem indexWriteError_grows (e : TapeError) {v : Vol σ β}
    (hsane : v.device.Sane) : v.device.Grows (indexWriteError e v).2.device := by
  have hsame := setLockStatus_frame .pweIp v.device
  rw [indexWriteError]
  split_ifs
  · have hgrows : v.device.Grows
        (v.onDevice (tapeSetCartVolumeLockStatus .pweIp)).2.device :=
      .of_eq hsane hsame.1 hsame.2
    split
    · next heq =>
      rw [heq] at hgrows
      exact hgrows
    · next heq =>
      rw [heq] at hgrows
      exact hgrows
  · exact .refl hsane

omit [Zero β] in
theorem indexWriteError_fst {e : TapeError} (v : Vol σ β)
    (he : e.isWritePerm = false) : (indexWriteError e v).1 = some e := by
  rw [indexWriteError, if_neg (by simp [he])]

/-- The invariant of the walk that writes requests to the index partition, from
state `s` on: all of them have long been in the file below. -/
structure IndexInv (m : Mount) (f : SparseFile β) (s : State σ β)
    (requests : List (WriteRequest β)) (p : DentryPriv β) (t : State σ β) :
    Prop where
  sound : SoundFile m.blockSize t.fileState
  same : cellsOf m.blockSize t.fileState = cellsOf m.blockSize s.fileState
  list : ListInv m.cacheSize (cellsOf m.blockSize s.fileState) f requests
    p.fileSize
  handed : HandsOver f.fill s t
  file : t.file = s.file
  grows : s.raw.vol.device.Grows t.raw.vol.device

/-- What that walk leaves.  After an error the handler has seen private data
whose list showed the file. -/
structure Indexed (m : Mount) (f : SparseFile β) (s t : State σ β)
    (r : TapeCall (DentryPriv β × State σ β) Unit) : Prop where
  done : ∃ q, IndexInv m f s q.requests q r.2.2 ∧
    match r.1 with
    | .ok _ => r.2.1 = q
    | .error e => ∃ ret, r.2.1 = unifiedHandleWriteError ret true
        r.2.2.raw.vol.device r.2.2.file.dentry q ∧
          (e.isWritePerm = false → ret = some e)
  ready : Ready t.raw → r.1 = .ok () ∧ Ready r.2.2.raw

omit [Zero β] in
@[simp]
theorem updateAlt_fileSize (bs : ℕ) (ext : Extent) (p : DentryPriv β) :
    (unifiedUpdateAltExtentlist bs ext p).fileSize = p.fileSize := by
  rw [unifiedUpdateAltExtentlist]
  split_ifs <;> rfl

/-- The volume has changed behind a write to the index partition, and the
requests that are left still show the file. -/
theorem IndexInv.handOver {req : WriteRequest β} {requests : List (WriteRequest β)}
    {a b : List (WriteRequest β)} {q : DentryPriv β}
    (h : IndexInv m f s (a ++ req :: b) p t) {v : Vol σ β}
    (hgrows : t.raw.vol.device.Grows v.device)
    (hlist : ListInv m.cacheSize (cellsOf m.blockSize s.fileState) f requests
      q.fileSize) :
    IndexInv m f s requests q { t.handOver ⟨.ip, req.offset, req.data⟩ with
      raw := { t.raw with vol := v } } := by
  obtain ⟨hsound, hsame⟩ := h.sound.grows hgrows
  exact ⟨hsound, hsame.trans h.same, hlist,
    h.handed.trans (.cons rfl h.list.data), h.file, h.grows.trans hgrows⟩

theorem indexRequests_spec (requests front : List (WriteRequest β))
    (h : IndexInv m f s (front ++ requests) p t) :
    Indexed m f s t (indexRequests C m requests front (p, t)) := by
  induction requests generalizing front p t with
  | nil =>
    rw [List.append_nil] at h
    exact ⟨⟨{ p with requests := front }, ⟨h.sound, h.same, h.list, h.handed, h.file,
      h.grows⟩, rfl⟩, fun hready => ⟨rfl, hready⟩⟩
  | cons req rest ih =>
    rw [indexRequests]
    by_cases hip : req.IsIp
    · rw [if_pos hip]
      have hreports := ltfsFsrawWriteData_spec C (p := .ip) m.blockSize_pos
        req.data h.sound.sane
      have hsucceeds := fun hr : Ready t.raw => ltfsFsrawWriteData_succeeds C
        (p := .ip) m.blockSize req.data hr.reliable hr.sane
      have hvol : (t.handOver ⟨.ip, req.offset, req.data⟩).raw.vol =
          t.fileState.1.vol := rfl
      dsimp only
      rw [hvol]
      cases hwrite : ltfsFsrawWriteData C m.blockSize .ip req.data 1
          t.fileState.1.vol with
      | mk ret v =>
        rw [hwrite] at hreports
        obtain ⟨hgrows, -⟩ := hreports
        cases ret with
        | ok start =>
          have hlist := h.list.remove hip
          have hnext := ih front (h.handOver (q :=
            unifiedUpdateAltExtentlist m.blockSize (writtenExtent .ip
              (start.getD 0) req.offset req.data) p) hgrows
            (by rw [updateAlt_fileSize]; exact hlist))
          refine ⟨hnext.done, fun hready => ?_⟩
          obtain ⟨x, w, hok, hreliable⟩ := hsucceeds hready
          obtain ⟨-, rfl⟩ := Prod.mk.inj (hwrite.symm.trans hok)
          exact hnext.ready (hready.grows hreliable hgrows)
        | error e =>
          have hgrows' := hgrows.trans (indexWriteError_grows e hgrows.sane)
          refine ⟨⟨{ p with requests := front ++ req :: rest },
            h.handOver hgrows' h.list, (indexWriteError e v).1, rfl,
            indexWriteError_fst v⟩, fun hready => ?_⟩
          obtain ⟨x, w, hok, -⟩ := hsucceeds hready
          exact absurd (hwrite.symm.trans hok) (by simp)
    · rw [if_neg hip]
      exact ih (front ++ [req]) (by rwa [List.append_cons] at h)

/-- What has to be written to the data partition has no part in a failure of the
index partition. -/
def KeepsPending (d : Device (List β)) : Except TapeError Unit → Prop
  | .ok _ => True
  | .error e => outOfSpace e ∧ tapeReadOnly .dp d = .ok ()

/-- The private data that the walk leaves shows the file, or what the handler has
left of it. -/
theorem Indexed.shows {ret : Except TapeError Unit} {q : DentryPriv β} {u : State σ β}
    (h : Indexed m f s t (ret, q, u)) (hbound : f.size ≤ 2 ^ 63) :
    (ret = .ok () → FileInv m f (u.withPriv q)) ∧
    ∃ g, FileInv m g (u.withPriv q) ∧ (KeepsPending u.raw.vol.device ret →
      ∀ x, (f.byte x).isSome → (g.byte x).isSome) := by
  obtain ⟨⟨q', ⟨hsound, hsame, hlist, -, -, -⟩, hq⟩, -⟩ := h
  rw [← hsame] at hlist
  cases ret with
  | ok x =>
    obtain rfl : q = q' := hq
    exact ⟨fun _ => ⟨hsound, hlist, hbound⟩, f, ⟨hsound, hlist, hbound⟩,
      fun _ _ => id⟩
  | error e =>
    obtain ⟨ret', hq, hret⟩ := hq
    obtain ⟨g, hg, hkept⟩ := handleWriteError_shows (k := 0) hsound
      (by rwa [ByteFile.pad_zero]) hbound ret' true
    have hq : q = unifiedHandleWriteError ret' true u.raw.vol.device u.file.dentry q' := hq
    rw [hq]
    refine ⟨fun hok => by simp at hok, g, hg, ?_⟩
    rintro ⟨hfull, hwritable⟩
    have hperm : e.isWritePerm = false := by
      cases e <;> simp_all [outOfSpace, TapeError.isWritePerm]
    exact hkept ⟨rfl, by rw [hret hperm]; exact hfull, hwritable⟩

/-- Writing to the index partition keeps the file.  If that partition is full
and the data partition can be written, nothing is lost. -/
theorem unifiedProcessIndexQueue_spec (h : FileInv m f s) :
    Keeps m 0 f s (unifiedProcessIndexQueue C m s) ∧
    (KeepsPending (unifiedProcessIndexQueue C m s).2.raw.vol.device
        (unifiedProcessIndexQueue C m s).1 →
      ∃ g, FileInv m g (unifiedProcessIndexQueue C m s).2 ∧
        ∀ x, (f.byte x).isSome → (g.byte x).isSome) := by
  rw [unifiedProcessIndexQueue]
  cases hp : s.file.ioschedPriv with
  | none =>
    exact ⟨.refl (paddedInv_zero.2 h) _, fun _ => ⟨f, h, fun _ => id⟩⟩
  | some p =>
    have hindexed := indexRequests_spec C (p := p) (t := s) p.requests []
      ⟨h.sound, rfl, h.privList hp, .of_eq rfl, rfl, .refl h.sound.sane⟩
    have hpriv := fun hok : FileOk s =>
      PrivOk.index C (m := m) (s := s) p.requests [] (hok p hp)
    dsimp only
    generalize indexRequests C m p.requests [] (p, s) = r at hindexed hpriv ⊢
    obtain ⟨ret, q, t⟩ := r
    obtain ⟨hdone, g, hg, hkept⟩ := hindexed.shows h.bound
    obtain ⟨⟨_, hinv, -⟩, hready⟩ := hindexed
    have hfreed := fun {g} (hg : FileInv m g (t.withPriv q)) =>
      unifiedFreeDentryPrivConditional_spec (paddedInv_zero.2 hg) 2
    refine ⟨⟨hinv.handed, ?_, fun hr => (hready hr).2, hinv.grows, ?_, ?_⟩, ?_⟩
    · intro hor
      exact (hfreed (hdone (hor.elim id fun hr => (hready hr).1))).1
    · intro x hx
      have hsame := hinv.same
      dsimp only [State.fileState] at hsame ⊢
      rw [freeConditional_dentry]
      exact hsame ▸ hx
    · intro hok
      exact ⟨(hfreed hg).2 (.withPriv (hpriv hok)), 0, le_rfl, g,
        paddedInv_zero.2 (hfreed hg).1.fileInv⟩
    · intro hkeeps
      exact ⟨g, (hfreed hg).1.fileInv, hkept hkeeps⟩

/-- Without tape errors the requests for the index partition are written. -/
theorem unifiedProcessIndexQueue_succeeds (h : FileInv m f s)
    (hready : Ready s.raw) : (unifiedProcessIndexQueue C m s).1 = .ok () := by
  rw [unifiedProcessIndexQueue]
  cases hp : s.file.ioschedPriv with
  | none => rfl
  | some p =>
    have hindexed := indexRequests_spec C (p := p) (t := s) p.requests []
      ⟨h.sound, rfl, h.privList hp, .of_eq rfl, rfl, .refl h.sound.sane⟩
    exact (hindexed.ready hready).1

/-- Closing the file keeps it. -/
theorem unifiedClose_spec {k : ℕ} (flush : Bool) (h : PaddedInv m k f s) :
    Keeps m k f s (unifiedClose C m flush s) := by
  have hflushed : Keeps m k f s
      (if flush then unifiedFlushUnlocked C m s else (.ok (), s)) := by
    split_ifs
    · exact unifiedFlushUnlocked_spec C h
    · exact .refl h _
  rw [unifiedClose]
  generalize (if flush then unifiedFlushUnlocked C m s else (.ok (), s)) = r at hflushed ⊢
  obtain ⟨ret, t⟩ := r
  have hread : ∀ ret', (ret' = .ok () → ret = .ok ()) →
      Keeps m k f s (ret', (unifiedGetWriteError t).2) :=
    fun ret' hret => hflushed.getWriteError ret' hret
  have hclosed : ∀ ret', (ret' = .ok () → ret = .ok ()) → Keeps m k f s (ret',
      { (unifiedGetWriteError t).2 with file :=
        { unifiedFreeDentryPrivConditional 3 (unifiedGetWriteError t).2.file with
          numhandles := (unifiedFreeDentryPrivConditional 3
            (unifiedGetWriteError t).2.file).numhandles - 1 } }) := by
    intro ret' hret
    refine (hread ret' hret).andThen id rfl rfl (freeConditional_dentry 3 _) ?_ ?_
    · intro k' hle g hg
      refine (unifiedFreeDentryPrivConditional_spec hg 3).1.trans ?_
      exact fun _ _ _ hg => PaddedInv.kept ⟨hg.sound, hg.list, hg.bound⟩
    · rintro ⟨k', hle, g, hg⟩ hok
      exact (unifiedFreeDentryPrivConditional_spec hg 3).2 hok
  cases ret with
  | ok x => exact hclosed _ fun _ => rfl
  | error e => exact hclosed _ fun hok => by simp at hok

end IndexQueue

end AuroraLtfs.Sched
