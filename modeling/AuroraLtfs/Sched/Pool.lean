import AuroraLtfs.Raw.Cleanup
import AuroraLtfs.Sched.Intact

/-!
# All files of a volume

Runs of the scheduler on any number of files that share the volume, with tape
errors at any time.  A step on one file leaves the others as they are: all it
does to the tape lies behind what their extents refer to.  So every file stays
intact, as long as no write to it is garbled, no truncation takes away all
alternate extents of a file, and no permanent write error, of whatever file, makes
libltfs remove extents.
-/

namespace AuroraLtfs.Sched

open AuroraLtfs.Tape
open AuroraLtfs.Index
open AuroraLtfs.Raw
open RequestState

variable {σ β : Type*}

/-- Locates and reads leave the records and the append positions alone. -/
theorem passive_extends : Passive fun v w : Vol σ β =>
    v.device.Extends w.device where
  refl := fun v => .refl v.device
  trans := Device.Extends.trans
  seek := fun p target v hsane =>
    .of_eq hsane (tapeSeek_frame p target v.device).1
      (tapeSeek_frame p target v.device).2
  read := fun v hsane =>
    .of_eq hsane (tapeRead_frame v.device).1 (tapeRead_frame v.device).2

variable [Zero β]

/-! ## One file -/

/-- What the requests in the list lie over: what libltfs has of the file, with the
requests that have been taken out of the list.  If one of these could not be sent,
the size of the file counts them until that is recorded. -/
def Lies (m : Mount) (w : Work σ β) (below : SparseFile β) : Prop :=
  match w.background with
  | .failed _ => ∃ k, below = (cellsOf m.blockSize w.state.fileState).pad k
  | background =>
    below = putAll background.taken (cellsOf m.blockSize w.state.fileState)

/-- A file on which work is going on is intact. -/
structure WorkIntact (m : Mount) (accepted : Set ℕ) (w : Work σ β) : Prop where
  shows : ∃ below, Lies m w below ∧ IntactOver m below accepted w.state
  taken : ∀ r ∈ w.background.taken, 0 < r.count ∧ r.stop ≤ 2 ^ 63
  notIp : w.background.taken ≠ [] → NotIp w.state.file
  waiting : ∀ c ∈ w.waiting, c.offset + c.bytes.length ≤ 2 ^ 63

section Work

variable {m : Mount} {accepted accepted' : Set ℕ} {w : Work σ β} {s t : State σ β}
  {below : SparseFile β}

theorem lies_of_taken (htaken : w.background.taken = []) :
    Lies m w below ↔ ∃ k, (k = 0 ∨ ∃ e, w.background = .failed e) ∧
      below = (cellsOf m.blockSize w.state.fileState).pad k := by
  rw [Lies]
  cases hback : w.background with
  | idle => simp [Background.taken]
  | sending requests =>
    rw [hback] at htaken
    obtain rfl : requests = [] := htaken
    simp [Background.taken]
  | failed e => simp

theorem lies_ofTaken (requests : List (WriteRequest β)) (waiting : List (Waiting β)) :
    Lies m ⟨s, .ofTaken requests, waiting⟩ below ↔
      below = putAll requests (cellsOf m.blockSize s.fileState) := by
  cases requests <;> exact Iff.rfl

theorem WorkIntact.sane (h : WorkIntact m accepted w) : w.state.raw.vol.device.Sane := by
  obtain ⟨below, -, hbelow⟩ := h.shows
  exact hbelow.sane

theorem WorkIntact.intact (h : WorkIntact m accepted w)
    (hidle : w.background = .idle) : Intact m accepted w.state := by
  obtain ⟨below, hlies, hbelow⟩ := h.shows
  rw [Lies, hidle] at hlies
  subst hlies
  exact hbelow

theorem WorkIntact.of_idle (hidle : w.background = .idle) (h : Intact m accepted w.state)
    (hwaiting : ∀ c ∈ w.waiting, c.offset + c.bytes.length ≤ 2 ^ 63) :
    WorkIntact m accepted w := by
  have htaken : w.background.taken = [] := by rw [hidle]; rfl
  refine ⟨⟨_, ?_, h⟩, by simp [htaken], fun hsome => absurd htaken hsome, hwaiting⟩
  rw [Lies, hidle]
  rfl

/-- A step that leaves what libltfs has of the file. -/
theorem WorkIntact.withState (h : WorkIntact m accepted w)
    (hcells : cellsOf m.blockSize s.fileState = cellsOf m.blockSize w.state.fileState)
    (hintact : ∀ below, IntactOver m below accepted w.state →
      IntactOver m below accepted' s)
    (hnotIp : NotIp w.state.file → NotIp s.file) :
    WorkIntact m accepted' (w.withState s) := by
  obtain ⟨below, hlies, hbelow⟩ := h.shows
  refine ⟨⟨below, ?_, hintact below hbelow⟩, h.taken, fun htaken =>
    hnotIp (h.notIp htaken), h.waiting⟩
  rw [Lies, Work.withState, hcells]
  exact hlies

/-- What has been handed down does not count. -/
theorem WorkIntact.of_eq (h : WorkIntact m accepted w) (hraw : s.raw = w.state.raw)
    (hfile : s.file = w.state.file) : WorkIntact m accepted (w.withState s) := by
  have hsame : s.fileState = w.state.fileState := Prod.ext hraw (congrArg File.dentry hfile)
  refine h.withState (by rw [hsame]) ?_ (by rw [hfile]; exact id)
  rintro below ⟨⟨f, hf, hall⟩, hpriv⟩
  refine ⟨⟨f, ⟨hsame ▸ hf.sound, ?_, hf.bound⟩, hall⟩, ?_⟩
  · rw [hfile]
    exact hf.list
  · rw [FileOk, hfile]
    exact hpriv

/-- A file stays intact when something else is written to the tape. -/
theorem WorkIntact.grows (h : WorkIntact m accepted w) {raw : RawVol σ β}
    (hgrows : w.state.raw.vol.device.Grows raw.vol.device) :
    WorkIntact m accepted (w.withState { w.state with raw := raw }) := by
  obtain ⟨below, -, ⟨f, hf, -⟩, -⟩ := h.shows
  exact h.withState (hf.sound.grows hgrows).2 (fun _ hbelow => hbelow.grows hgrows) id

/-- A step that works on the file while nothing is taken out of the list. -/
theorem WorkIntact.untaken (h : WorkIntact m accepted w)
    (htaken : w.background.taken = [])
    (hstep : ∀ k, IntactOver m ((cellsOf m.blockSize w.state.fileState).pad k)
      accepted w.state → IntactUpTo m k accepted' s ∧
        w.state.raw.vol.device.Grows s.raw.vol.device) :
    WorkIntact m accepted' (w.withState s) ∧
      w.state.raw.vol.device.Grows s.raw.vol.device := by
  obtain ⟨below, hlies, hbelow⟩ := h.shows
  obtain ⟨k, hk, rfl⟩ := (lies_of_taken htaken).1 hlies
  obtain ⟨⟨k', hle, hnext⟩, hgrows⟩ := hstep k hbelow
  have hlies' : Lies m (w.withState s) ((cellsOf m.blockSize s.fileState).pad k') :=
    (lies_of_taken (w := w.withState s) htaken).2
      ⟨k', hk.imp_left fun hzero => by omega, rfl⟩
  exact ⟨⟨⟨_, hlies', hnext⟩, h.taken, fun hsome => absurd htaken hsome, h.waiting⟩, hgrows⟩

theorem writePart_intact (h : WorkIntact m accepted w) (resumed : Bool) {blocks : ℕ}
    {c : Waiting β} (hrange : c.offset + c.bytes.length ≤ 2 ^ 63)
    (hclean : ¬GarblesWrite m blocks c.offset c.bytes w.state) :
    WorkIntact m
        (acceptedBy accepted c.offset
          (unifiedWrite m resumed blocks c.offset c.bytes w.state).1)
        (writePart m resumed blocks c w).2 ∧
      (writePart m resumed blocks c w).2.state.raw = w.state.raw := by
  obtain ⟨below, -, ⟨f, hf, -⟩, -⟩ := h.shows
  have hspec := unifiedWrite_spec hf resumed hrange hclean
  have hle := unifiedWrite_le m resumed blocks c.offset c.bytes w.state
  have hnext := h.withState (s := (unifiedWrite m resumed blocks c.offset c.bytes
      w.state).2) (by rw [hspec.fileState])
    (fun _ hbelow => unifiedWrite_intact hbelow resumed hrange hclean) hspec.notIp
  have hraw := congrArg Prod.fst hspec.fileState
  rw [writePart]
  generalize unifiedWrite m resumed blocks c.offset c.bytes w.state = r at hle hnext hraw ⊢
  obtain ⟨ret, t⟩ := r
  cases ret with
  | error e => exact ⟨hnext, hraw⟩
  | ok n =>
    dsimp only
    split_ifs
    · exact ⟨hnext, hraw⟩
    · refine ⟨⟨hnext.shows, hnext.taken, hnext.notIp, ?_⟩, hraw⟩
      intro d hd
      rcases List.mem_cons.1 hd with rfl | hd
      · have hn : n ≤ c.bytes.length := hle n rfl
        simp only [List.length_drop]
        omega
      · exact h.waiting d hd

/-- Reading leaves the file alone and writes nothing. -/
theorem unifiedRead_extends (m : Mount) (offset size : ℕ) (s : State σ β) :
    ∃ raw : RawVol σ β, (unifiedRead m offset size s).2 = { s with raw := raw } ∧
      s.raw.vol.device.Extends raw.vol.device := by
  obtain ⟨⟨raw, d⟩, hstate, hextends, hdentry⟩ := unifiedRead_rel
    (R := fun x y : FileState σ β =>
      x.1.vol.device.Extends y.1.vol.device ∧ y.2 = x.2)
    (fun x => ⟨.refl _, rfl⟩)
    (fun hxy hyz => ⟨hxy.1.trans hyz.1, hyz.2.trans hxy.2⟩) m
    (fun offset count x => ltfsFsrawRead_reads passive_extends _ offset count x)
    offset size s
  refine ⟨raw, ?_, hextends⟩
  obtain rfl : d = s.file.dentry := hdentry
  exact hstate

end Work

section Steps

variable (C : Catalog σ (List β)) (m : Mount)

/-- The offsets of the file that have been accepted behind a step: neither cut
off since nor given up because a write for this file failed. -/
noncomputable def Op.accepted (accepted : Set ℕ) (w : Work σ β) :
    Op β → Set ℕ
  | .write blocks offset bytes =>
    acceptedBy accepted offset (unifiedWrite m false blocks offset bytes w.state).1
  | .resume call blocks => match w.waiting[call]? with
    | none => accepted
    | some c => acceptedBy accepted c.offset
        (unifiedWrite m true blocks c.offset c.bytes w.state).1
  | .truncate length =>
    acceptedBelow accepted length (unifiedTruncate m length w.state).1
  | .flush | .flushAll =>
    acceptedAfter accepted w.state (unifiedFlushUnlocked C m w.state).1
  | .close flushed =>
    acceptedAfter accepted w.state (unifiedClose C m flushed w.state).1
  | .index => acceptedAfterIndex accepted w.state (unifiedProcessIndexQueue C m w.state)
  | .take queue => acceptedAfter accepted w.state (takeRequests C m queue w.state).1
  | .send => match (Op.send.exec C m w).1 with
    | .ok _ => accepted
    | .error _ => unlost accepted (Op.send.exec C m w).2.state
  | .record => surviving accepted w.state
  | .place .. | .openFile | .read .. => accepted

/-- The step is no truncation that takes away all alternate extents of a file
that has some. -/
def Op.KeepsLinks (s : State σ β) : Op β → Prop
  | .truncate length => KeepsAltExtents length s
  | _ => True

variable {m} {accepted : Set ℕ} {w : Work σ β}

theorem close_intact (h : WorkIntact m accepted w) {flushed : Bool}
    (henabled : (Op.close flushed : Op β).Enabled w) :
    WorkIntact m
        (acceptedAfter accepted w.state (unifiedClose C m flushed w.state).1)
        (w.withState (unifiedClose C m flushed w.state).2) ∧
      w.state.raw.vol.device.Grows
        (unifiedClose C m flushed w.state).2.raw.vol.device := by
  rcases henabled with htaken | hatonce
  · exact h.untaken htaken fun _ hbelow =>
      hbelow.keeps fun _ => unifiedClose_spec C flushed
  · have hmoved := unifiedClose_unmoved C (m := m) hatonce
    have hraw : (unifiedClose C m flushed w.state).2.raw = w.state.raw :=
      congrArg Prod.fst hmoved.fileState
    have hsubset : acceptedAfter accepted w.state
        (unifiedClose C m flushed w.state).1 ⊆ accepted := by
      cases (unifiedClose C m flushed w.state).1 with
      | ok _ => exact subset_rfl
      | error e => exact fun x hx => hx.1
    refine ⟨h.withState (by rw [hmoved.fileState])
      (fun _ hbelow => (hbelow.unmoved hmoved).subset hsubset) ?_,
      by rw [hraw]; exact .refl h.sane⟩
    rw [NotIp, NotIp, hmoved.requests]
    exact id

theorem take_intact (h : WorkIntact m accepted w) (queue : RequestState)
    (hidle : w.background = .idle) :
    WorkIntact m
        (acceptedAfter accepted w.state (takeRequests C m queue w.state).1)
        ⟨(takeRequests C m queue w.state).2.2,
          .ofTaken (takeRequests C m queue w.state).2.1, w.waiting⟩ ∧
      w.state.raw.vol.device.Grows
        (takeRequests C m queue w.state).2.2.raw.vol.device := by
  obtain ⟨⟨f, hf, hall⟩, hpriv⟩ := h.intact hidle
  have hspec := takeRequests_spec C queue hf
  generalize takeRequests C m queue w.state = r at hspec ⊢
  obtain ⟨ret, requests, t⟩ := r
  obtain ⟨hok, hnot, g, hg⟩ := hspec.intact hpriv
  refine ⟨⟨⟨_, (lies_ofTaken requests _).2 rfl, ?_⟩, ?_, ?_, h.waiting⟩, hspec.grows⟩
  · cases ret with
    | ok _ => exact ⟨⟨f, hspec.inv (.inl rfl), hall⟩, hok⟩
    | error e =>
      refine ⟨⟨g, hg, ?_⟩, hok⟩
      rintro x ⟨-, hx⟩
      have hx := hspec.covers x ((isSome_cellsOf hf.sound).2 hx)
      exact hg.list.shows.isSome (.inl (isSome_putAll requests _ hx))
  · intro r hr
    rw [Background.taken_ofTaken] at hr
    obtain ⟨hpos, hbound, -⟩ := hspec.requests r hr
    exact ⟨hpos, hbound⟩
  · rw [Background.taken_ofTaken]
    exact hnot

theorem send_intact (h : WorkIntact m accepted w) (henabled : w.background.taken ≠ []) :
    WorkIntact m (Op.send.accepted C m accepted w) (Op.send.exec C m w).2 ∧
      w.state.raw.vol.device.Grows (Op.send.exec C m w).2.state.raw.vol.device := by
  have hnot := h.notIp henabled
  obtain ⟨below, hlies, hbelow⟩ := h.shows
  have htaken := h.taken
  obtain ⟨s, background, waiting⟩ := w
  rcases background with _ | (_ | ⟨req, rest⟩) | e
  · simp [Background.taken] at henabled
  · simp [Background.taken] at henabled
  · obtain rfl : below = putAll (req :: rest) (cellsOf m.blockSize s.fileState) := hlies
    obtain ⟨⟨f, hf, hall⟩, hpriv⟩ := hbelow
    obtain ⟨hpos, hbound⟩ := htaken req (by simp [Background.taken])
    obtain ⟨hsound, hgrows, hfile⟩ := writeOut_sound C hf.sound hpos hbound
    have hsent := hf.sent C hpos hbound
    have hfails := hf.unsent C hpos hbound
    have hsame : (writeOut C m req s).2.file.ioschedPriv = s.file.ioschedPriv := rfl
    rw [Op.accepted, Op.exec]
    dsimp only
    generalize writeOut C m req s = r at hsound hgrows hfile hsent hfails hsame ⊢
    obtain ⟨ret, t⟩ := r
    have hpriv : FileOk t := by
      rw [FileOk, hsame]
      exact hpriv
    have hnot : NotIp t.file := by
      rw [NotIp, File.requests, hsame]
      exact hnot
    cases ret with
    | ok _ =>
      refine ⟨⟨⟨_, (lies_ofTaken rest _).2 rfl, ⟨f, hsent rfl, hall⟩, hpriv⟩, ?_,
        fun _ => hnot, h.waiting⟩, hgrows⟩
      intro r hr
      have hr : r ∈ (Background.ofTaken rest).taken := hr
      rw [Background.taken_ofTaken] at hr
      exact htaken r (List.mem_cons_of_mem req hr)
    | error e =>
      obtain ⟨k, hk⟩ := IntactOver.lose ⟨⟨f, hfails e rfl, hall⟩, hpriv⟩ hnot
      exact ⟨⟨⟨_, ⟨k, rfl⟩, hk⟩, by simp [Background.taken],
        by simp [Background.taken], h.waiting⟩, hgrows⟩
  · simp [Background.taken] at henabled

theorem exec_intact (h : WorkIntact m accepted w) {op : Op β} (henabled : op.Enabled w)
    (hrange : op.InRange) (hclean : op.Clean m w) (hlinks : op.KeepsLinks w.state) :
    WorkIntact m (op.accepted C m accepted w) (op.exec C m w).2 ∧
      w.state.raw.vol.device.Grows (op.exec C m w).2.state.raw.vol.device := by
  cases op with
  | write blocks offset bytes =>
    obtain ⟨hnext, hraw⟩ := writePart_intact (c := ⟨offset, bytes, bytes.length⟩) h
      false hrange hclean
    refine ⟨hnext, ?_⟩
    rw [Op.exec, hraw]
    exact .refl h.sane
  | resume call blocks =>
    obtain ⟨c, hget⟩ : ∃ c, w.waiting[call]? = some c :=
      ⟨_, List.getElem?_eq_getElem henabled⟩
    have hrest : WorkIntact m accepted { w with waiting := w.waiting.eraseIdx call } :=
      ⟨h.shows, h.taken, h.notIp, fun d hd =>
        h.waiting d (List.mem_of_mem_eraseIdx hd)⟩
    obtain ⟨hnext, hraw⟩ := writePart_intact hrest true
      (h.waiting c (List.mem_of_getElem? hget)) (hclean c hget)
    rw [Op.accepted, Op.exec, hget]
    refine ⟨hnext, ?_⟩
    dsimp only
    rw [hraw]
    exact .refl h.sane
  | truncate length =>
    rw [Op.exec, Outcome.within, andThen_reply]
    exact h.untaken henabled fun _ hbelow =>
      unifiedTruncate_intact hbelow hrange hlinks
  | flush | flushAll =>
    have htaken : w.background.taken = [] := by rw [henabled]; rfl
    rw [Op.exec, Outcome.within, andThen_reply]
    exact h.untaken htaken fun _ hbelow =>
      hbelow.keeps fun _ => unifiedFlushUnlocked_spec C
  | close flushed =>
    rw [Op.exec, Outcome.within, andThen_reply]
    exact close_intact C h henabled
  | place matchesNameCriteria deleted =>
    refine ⟨h.withState ?_ ?_ ?_, .refl h.sane⟩
    · rw [State.fileState, place_dentry]
      rfl
    · rintro below ⟨⟨f, hf, hall⟩, hpriv⟩
      exact unifiedUpdateDataPlacement_intact (s := { w.state with file :=
        { w.state.file with
          matchesNameCriteria := matchesNameCriteria
          deleted := deleted } })
        ⟨⟨f, ⟨hf.sound, hf.list, hf.bound⟩, hall⟩, hpriv⟩
    · exact fun hnot => place_notIp hnot
  | openFile =>
    refine ⟨h.withState rfl ?_ id, .refl h.sane⟩
    rintro below ⟨⟨f, hf, hall⟩, hpriv⟩
    exact ⟨⟨f, ⟨hf.sound, hf.list, hf.bound⟩, hall⟩, hpriv⟩
  | read offset size =>
    rw [Op.exec, Outcome.within, andThen_reply]
    obtain ⟨raw, hstate, hextends⟩ := unifiedRead_extends m offset size w.state
    rw [hstate]
    exact ⟨h.grows (hextends h.sane), hextends h.sane⟩
  | index =>
    rw [Op.exec, Outcome.within, andThen_reply]
    obtain ⟨hnext, hgrows⟩ := unifiedProcessIndexQueue_intact C (h.intact henabled)
    exact ⟨.of_idle henabled hnext h.waiting, hgrows⟩
  | take queue =>
    have hexec : ((Op.take queue).exec C m w).2 =
        ⟨(takeRequests C m queue w.state).2.2,
          .ofTaken (takeRequests C m queue w.state).2.1, w.waiting⟩ := by
      have hidle : w.background = .idle := henabled
      rw [Op.exec, hidle]
      dsimp only
      rw [Outcome.within, andThen_reply]
    rw [hexec]
    exact take_intact C h queue henabled
  | send => exact send_intact C h henabled
  | record =>
    obtain ⟨e, he⟩ := henabled
    obtain ⟨below, hlies, hbelow⟩ := h.shows
    rw [Lies, he] at hlies
    obtain ⟨k, rfl⟩ := hlies
    have hraw : (recordFailure e w.state).raw = w.state.raw := by
      rw [recordFailure]
      cases w.state.file.ioschedPriv <;> rfl
    rw [Op.exec, he]
    refine ⟨.of_idle rfl (recordFailure_intact e hbelow) h.waiting, ?_⟩
    dsimp only
    rw [hraw]
    exact .refl h.sane

end Steps

/-! ## The files -/

/-- The volume and its files. -/
structure Pool (ι σ β : Type*) where
  raw : RawVol σ β
  files : ι → File β

/-- The volume and its files, with the work that is going on. -/
structure PoolWork (ι σ β : Type*) extends Pool ι σ β where
  background : ι → Background β
  waiting : ι → List (Waiting β)

variable {ι : Type*} [DecidableEq ι]

namespace Pool

/-- What a call on file `i` works on. -/
def state (v : Pool ι σ β) (i : ι) : State σ β :=
  { raw := v.raw, file := v.files i, handed := [] }

def put (v : Pool ι σ β) (i : ι) (s : State σ β) : Pool ι σ β :=
  { raw := s.raw, files := Function.update v.files i s.file }

/-- Run a call on file `i`. -/
def onFile {α : Type*} (v : Pool ι σ β) (i : ι)
    (call : State σ β → TapeCall (State σ β) α) : TapeCall (Pool ι σ β) α :=
  (call (v.state i)).within (v.put i)

/-- No work is going on. -/
def atRest (v : Pool ι σ β) : PoolWork ι σ β :=
  { v with background := fun _ => .idle, waiting := fun _ => [] }

/-- An error at this position makes libltfs remove no extent. -/
def SparesExtents (m : Mount) (v : Pool ι σ β) (err : Position) : Prop :=
  ∀ i, ∀ e ∈ (v.files i).dentry.extents, doomed m.blockSize err e = false

end Pool

/-- The size of a file that the handler of write errors counts. -/
def recount (f : File β) : File β :=
  match f.ioschedPriv with
  | none => f
  | some p =>
    { f with
      ioschedPriv := some { p with
        fileSize := p.requests.foldl (fun size r => max size r.stop) f.dentry.size } }

namespace PoolWork

/-- What a step on file `i` works on. -/
def work (v : PoolWork ι σ β) (i : ι) : Work σ β :=
  ⟨v.state i, v.background i, v.waiting i⟩

def put (v : PoolWork ι σ β) (i : ι) (w : Work σ β) : PoolWork ι σ β where
  toPool := v.toPool.put i w.state
  background := Function.update v.background i w.background
  waiting := Function.update v.waiting i w.waiting

/-- `_unified_write_index_after_perm`, which follows when a write for file `i` has
failed with a permanent error: libltfs removes the extents of all files that lie
behind the error.  `lock` tells where it gets the volume lock.  The handler of the
error, unless the failure has still to be recorded, comes only after it, and counts
the size from what is left.  What is written to the cartridge memory and to the index
partition is left to the other uses of the tape. -/
def afterPerm (m : Mount) (i : ι) (lock : ι → ℕ → Option TapeError) (err : Position)
    (v : PoolWork ι σ β) : PoolWork ι σ β :=
  let files := fun j =>
    { v.files j with
      dentry := cleanupFile (lock j) m.blockSize err (v.files j).dentry }
  { v with
    files := match v.background i with
      | .idle => Function.update files i (recount (files i))
      | _ => files }

end PoolWork

/-! ## Runs -/

/-- What a run reaches whose steps all satisfy `ok`, with the offsets of each file
that have been accepted.  A permanent write error is at a position that satisfies
`okPerm`.  Between the steps the tape may be used in other ways, as long as what has
been written stays. -/
inductive PoolRun (C : Catalog σ (List β)) (m : Mount)
    (ok : Work σ β → Op β → Prop) (okPerm : Pool ι σ β → Position → Prop)
    (v₀ : Pool ι σ β) : PoolWork ι σ β → (ι → Set ℕ) → Prop
  | start : PoolRun C m ok okPerm v₀ v₀.atRest fun _ => ∅
  | step {v : PoolWork ι σ β} {accepted : ι → Set ℕ} (i : ι) (op : Op β)
      (hrun : PoolRun C m ok okPerm v₀ v accepted) (henabled : op.Enabled (v.work i))
      (hrange : op.InRange) (hok : ok (v.work i) op) :
      PoolRun C m ok okPerm v₀ (v.put i (op.exec C m (v.work i)).2)
        (Function.update accepted i (op.accepted C m (accepted i) (v.work i)))
  | perm {v : PoolWork ι σ β} {accepted : ι → Set ℕ} (i : ι)
      (lock : ι → ℕ → Option TapeError) (err : Position)
      (hrun : PoolRun C m ok okPerm v₀ v accepted) (hok : okPerm v.toPool err) :
      PoolRun C m ok okPerm v₀ (v.afterPerm m i lock err) accepted
  | tape {v : PoolWork ι σ β} {accepted : ι → Set ℕ} (raw : RawVol σ β)
      (hrun : PoolRun C m ok okPerm v₀ v accepted)
      (hgrows : v.raw.vol.device.Grows raw.vol.device) :
      PoolRun C m ok okPerm v₀ { v with raw := raw } accepted

/-- Files that the scheduler has not touched. -/
structure PoolFresh (m : Mount) (v : Pool ι σ β) : Prop where
  sound : ∀ i, SoundFile m.blockSize (v.state i).fileState
  unused : ∀ i, (v.files i).ioschedPriv = none
  bound : ∀ i, (v.files i).dentry.size ≤ 2 ^ 63

/-- All files are intact. -/
def PoolIntact (m : Mount) (accepted : ι → Set ℕ) (v : Pool ι σ β) : Prop :=
  ∀ i, Intact m (accepted i) (v.state i)

section Runs

variable (C : Catalog σ (List β)) {m : Mount} {v : PoolWork ι σ β}
  {v₀ : Pool ι σ β} {accepted : ι → Set ℕ}

omit [DecidableEq ι] in
theorem PoolFresh.intact (h : PoolFresh m v₀) : PoolIntact m (fun _ => ∅) v₀ := by
  intro i
  have hunused : (v₀.state i).file.ioschedPriv = none := h.unused i
  refine ⟨⟨_, fileInv_fresh (h.sound i) hunused (h.bound i), by simp⟩, ?_⟩
  intro p hp
  exact absurd (hunused.symm.trans hp) (by simp)

/-- The handler has counted the size already. -/
theorem recount_eq {f : SparseFile β} {s : State σ β} (h : FileInv m f s) :
    recount s.file = s.file := by
  rw [recount]
  cases hp : s.file.ioschedPriv with
  | none => rfl
  | some p =>
    obtain ⟨-, hwithin, -, habove, htop⟩ := (h.privList hp).shows
    obtain ⟨hle, hall, hreached⟩ := foldl_stop p.requests s.file.dentry.size
    have hsize : p.requests.foldl (fun size r => max size r.stop) s.file.dentry.size =
        p.fileSize := by
      generalize p.requests.foldl (fun size r => max size r.stop)
        s.file.dentry.size = size at hle hall hreached ⊢
      apply le_antisymm
      · rcases hle.lt_or_eq with hmore | heq
        · obtain ⟨r, hr, hstop⟩ := hreached hmore
          exact hstop.symm.le.trans (hwithin r hr)
        · exact heq.symm.le.trans habove
      · by_contra hlt
        obtain ⟨b, hb⟩ := Option.isSome_iff_exists.1 (htop (by
          have hcells : (cellsOf m.blockSize s.fileState).size = s.file.dentry.size := rfl
          omega))
        obtain ⟨r, hr, -, hhi, -⟩ := Segments.exists_of_lookup _ hb
        have hhi : p.fileSize - 1 < r.stop := hhi
        have hr := hall r hr
        omega
    dsimp only
    rw [hsize]
    obtain ⟨raw, ⟨dentry, priv, named, deleted, numhandles⟩, handed⟩ := s
    obtain rfl : priv = some p := hp
    rfl

/-- A step on one file leaves the others intact. -/
theorem put_intact (h : ∀ i, WorkIntact m (accepted i) (v.work i)) (i : ι)
    {w : Work σ β} {taken : Set ℕ} (hw : WorkIntact m taken w)
    (hgrows : v.raw.vol.device.Grows w.state.raw.vol.device) (j : ι) :
    WorkIntact m (Function.update accepted i taken j) ((v.put i w).work j) := by
  by_cases hj : j = i
  · subst hj
    rw [Function.update_self]
    have hsame : (v.put j w).work j =
        w.withState { raw := w.state.raw, file := w.state.file, handed := [] } := by
      simp [PoolWork.work, PoolWork.put, Pool.state, Pool.put, Work.withState]
    rw [hsame]
    exact hw.of_eq rfl rfl
  · rw [Function.update_of_ne hj]
    have hsame : (v.put i w).work j =
        (v.work j).withState { (v.work j).state with raw := w.state.raw } := by
      simp [PoolWork.work, PoolWork.put, Pool.state, Pool.put, Work.withState, hj]
    rw [hsame]
    exact (h j).grows hgrows

/-- A permanent write error that spares the extents changes nothing. -/
theorem afterPerm_eq (h : ∀ i, WorkIntact m (accepted i) (v.work i)) (i : ι)
    (lock : ι → ℕ → Option TapeError) {err : Position}
    (hspares : v.SparesExtents m err) : v.afterPerm m i lock err = v := by
  have hclean := fun j => cleanupFile_eq (lock j) (hspares j)
  simp only [PoolWork.afterPerm, hclean]
  cases hback : v.background i with
  | idle =>
    obtain ⟨⟨f, hf, -⟩, -⟩ := (h i).intact hback
    have hsame : recount (v.files i) = v.files i := recount_eq hf
    simp only [hsame, Function.update_eq_self]
  | sending requests => rfl
  | failed e => rfl

theorem PoolRun.intact (hfresh : PoolFresh m v₀)
    (hrun : PoolRun C m (fun w op => op.Clean m w ∧ op.KeepsLinks w.state)
      (Pool.SparesExtents m) v₀ v accepted) (i : ι) :
    WorkIntact m (accepted i) (v.work i) := by
  induction hrun generalizing i with
  | start => exact .of_idle rfl (hfresh.intact i) (by simp [Pool.atRest, PoolWork.work])
  | step j op _ henabled hrange hok ih =>
    obtain ⟨hnext, hgrows⟩ := exec_intact C (ih j) henabled hrange hok.1 hok.2
    exact put_intact ih j hnext hgrows i
  | perm j lock err _ hspares ih =>
    rw [afterPerm_eq ih j lock hspares]
    exact ih i
  | tape raw _ hgrows ih => exact (ih i).grows hgrows

/-- A call on one file leaves the others intact. -/
theorem PoolIntact.onFile {α : Type*} (h : PoolIntact m accepted v₀) (i : ι)
    (call : State σ β → TapeCall (State σ β) α) {taken : Set ℕ}
    (hcall : Intact m taken (call (v₀.state i)).2 ∧
      (v₀.state i).raw.vol.device.Grows (call (v₀.state i)).2.raw.vol.device) :
    PoolIntact m (Function.update accepted i taken) (v₀.onFile i call).2 := by
  have hworks := fun j => WorkIntact.of_idle (w := v₀.atRest.work j) rfl (h j)
    (by simp [Pool.atRest, PoolWork.work])
  intro j
  exact (put_intact hworks i (w := .ofState (call (v₀.state i)).2)
    (.of_idle rfl hcall.1 (by simp [Work.ofState])) hcall.2 j).intact (by
      simp [PoolWork.work, PoolWork.put, Pool.atRest, Work.ofState])

end Runs

end AuroraLtfs.Sched
