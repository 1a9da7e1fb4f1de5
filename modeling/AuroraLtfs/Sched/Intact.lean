import AuroraLtfs.Raw.Cover
import AuroraLtfs.Raw.ReadFrame
import AuroraLtfs.Sched.Refinement

/-!
# Files stay intact through tape errors

An offset that a write has accepted is no hole of the file that the requests
show: it is in the extents of the file, or has still to be written.  Every step
keeps it so, also when the tape fails.  What is given up then are offsets that have
still to be written; what is in the extents stays.
-/

namespace AuroraLtfs.Sched

open AuroraLtfs.Tape
open AuroraLtfs.Index
open AuroraLtfs.Raw
open RequestState

variable {σ β : Type*} [Zero β]

/-- The requests over the file `below` fit together, and no accepted offset is
lost. -/
structure IntactOver (m : Mount) (below : SparseFile β) (accepted : Set ℕ)
    (s : State σ β) : Prop where
  shows : ∃ f, FileInvOver m below f s ∧ ∀ x ∈ accepted, (f.byte x).isSome
  priv : FileOk s

/-- The same over what libltfs has of the file. -/
abbrev Intact (m : Mount) (accepted : Set ℕ) (s : State σ β) : Prop :=
  IntactOver m (cellsOf m.blockSize s.fileState) accepted s

/-- libltfs has a byte of the file where an extent covers its offset. -/
theorem isSome_cellsOf {bs : ℕ} {s : FileState σ β} (hs : SoundFile bs s) {x : ℕ} :
    ((cellsOf bs s).byte x).isSome ↔ Covered s.2.extents x := by
  rw [cellsOf, cells_byte hs.dentry]
  constructor
  · intro hx
    obtain ⟨b, hb⟩ := Option.isSome_iff_exists.1 hx
    obtain ⟨e, he, hlo, hhi, -⟩ := Segments.exists_of_lookup _ hb
    exact ⟨e, he, hlo, hhi⟩
  · rintro ⟨e, he, hlo, hhi⟩
    rw [Segments.lookup_of_mem _ hs.dentry.ordered he hlo hhi]
    rfl

section Steps

variable {m : Mount} {k : ℕ} {below : SparseFile β} {accepted : Set ℕ}
  {s t : State σ β}

theorem IntactOver.subset {accepted' : Set ℕ} (h : IntactOver m below accepted s)
    (hsubset : accepted' ⊆ accepted) : IntactOver m below accepted' s := by
  obtain ⟨⟨f, hf, hall⟩, hpriv⟩ := h
  exact ⟨⟨f, hf, fun x hx => hall x (hsubset hx)⟩, hpriv⟩

theorem IntactOver.sane (h : IntactOver m below accepted s) : s.raw.vol.device.Sane := by
  obtain ⟨⟨f, hf, -⟩, -⟩ := h
  exact hf.sound.sane

theorem IntactOver.unmoved (h : IntactOver m below accepted s)
    (hmoved : Unmoved s t) : IntactOver m below accepted t := by
  obtain ⟨⟨f, hf, hall⟩, hpriv⟩ := h
  exact ⟨⟨f, hf.unmoved hmoved, hall⟩, hmoved.priv hpriv⟩

/-- A file stays intact when something else is written to the tape. -/
theorem IntactOver.grows (h : IntactOver m below accepted s) {raw : RawVol σ β}
    (hgrows : s.raw.vol.device.Grows raw.vol.device) :
    IntactOver m below accepted { s with raw := raw } := by
  obtain ⟨⟨f, hf, hall⟩, hpriv⟩ := h
  have hsound := (hf.sound.grows hgrows).1
  exact ⟨⟨f, ⟨⟨hsound.sane, hsound.dentry⟩, hf.list, hf.bound⟩, hall⟩, hpriv⟩

/-- Once nothing has to be written to the data partition the extents cover all
accepted offsets. -/
theorem Intact.covered (h : Intact m accepted s)
    (hip : ∀ r ∈ s.file.requests, r.IsIp) {x : ℕ} (hx : x ∈ accepted) :
    Covered s.file.dentry.extents x := by
  obtain ⟨⟨f, hf, hall⟩, -⟩ := h
  rcases hf.list.pending (hall x hx) with hx | ⟨r, hr, hnot, -⟩
  · exact (isSome_cellsOf hf.sound).1 hx
  · exact absurd (hip r hr) hnot

/-- The offsets that have been accepted behind a write at `offset`. -/
def acceptedBy (accepted : Set ℕ) (offset : ℕ) : Except TapeError ℕ → Set ℕ
  | .ok n => accepted ∪ {x | offset ≤ x ∧ x < offset + n}
  | .error _ => accepted

theorem unifiedWrite_intact (h : IntactOver m below accepted s) (resumed : Bool)
    {blocks offset : ℕ} {bytes : List β} (hrange : offset + bytes.length ≤ 2 ^ 63)
    (hclean : ¬GarblesWrite m blocks offset bytes s) :
    IntactOver m below
      (acceptedBy accepted offset (unifiedWrite m resumed blocks offset bytes s).1)
      (unifiedWrite m resumed blocks offset bytes s).2 := by
  obtain ⟨⟨f, hf, hall⟩, hpriv⟩ := h
  have hspec := unifiedWrite_spec hf resumed hrange hclean
  have hle := unifiedWrite_le m resumed blocks offset bytes s
  generalize unifiedWrite m resumed blocks offset bytes s = r at hspec hle ⊢
  obtain ⟨ret, t⟩ := r
  refine ⟨⟨_, hspec.inv, ?_⟩, hspec.priv hpriv⟩
  cases ret with
  | error e => exact hall
  | ok n =>
    intro x hx
    apply ByteFile.isSome_put
    rw [List.length_take, min_eq_left (hle n rfl)]
    exact hx.imp_left (hall x)

/-- The offsets that have been accepted behind a truncation. -/
def acceptedBelow (accepted : Set ℕ) (length : ℕ) :
    Except TapeError Unit → Set ℕ
  | .ok _ => {x ∈ accepted | x < length}
  | .error _ => accepted

/-- The file over what libltfs has of it, and up to `k` bytes. -/
def IntactUpTo (m : Mount) (k : ℕ) (accepted : Set ℕ) (s : State σ β) : Prop :=
  ∃ k' ≤ k, IntactOver m ((cellsOf m.blockSize s.fileState).pad k') accepted s

theorem intactUpTo_zero : IntactUpTo m 0 accepted s ↔ Intact m accepted s := by
  simp [IntactUpTo, Intact]

theorem unifiedTruncate_intact
    (h : IntactOver m ((cellsOf m.blockSize s.fileState).pad k) accepted s)
    {length : ℕ} (hrange : length ≤ 2 ^ 63) (hkeeps : KeepsAltExtents length s) :
    IntactUpTo m k (acceptedBelow accepted length (unifiedTruncate m length s).1)
        (unifiedTruncate m length s).2 ∧
      s.raw.vol.device.Grows (unifiedTruncate m length s).2.raw.vol.device := by
  have hsane := h.sane
  obtain ⟨⟨f, hf, hall⟩, hpriv⟩ := h
  obtain ⟨⟨k', hle, hinv⟩, hok, -, hraw⟩ := unifiedTruncate_spec hf hrange
  generalize unifiedTruncate m length s = r at hinv hok hraw ⊢
  obtain ⟨ret, t⟩ := r
  refine ⟨⟨k', hle, ⟨_, hinv, ?_⟩, hok hpriv hkeeps⟩, by rw [hraw]; exact .refl hsane⟩
  cases ret with
  | error e => exact hall
  | ok x =>
    rintro x ⟨hx, hlt⟩
    simp only [afterTruncate, ByteFile.truncate, hlt, if_true]
    exact hall x hx

/-- Renaming or unlinking the file. -/
theorem unifiedUpdateDataPlacement_intact (h : IntactOver m below accepted s) :
    IntactOver m below accepted
      { s with file := unifiedUpdateDataPlacement m s.file } := by
  obtain ⟨⟨f, hf, hall⟩, hpriv⟩ := h
  obtain ⟨hinv, hok⟩ := unifiedUpdateDataPlacement_spec hf
  exact ⟨⟨f, hinv, hall⟩, hok hpriv⟩

/-! ## Writing out -/

/-- The accepted offsets that are in the extents of the file. -/
def surviving (accepted : Set ℕ) (s : State σ β) : Set ℕ :=
  {x ∈ accepted | Covered s.file.dentry.extents x}

/-- The offsets that have been accepted behind a step that writes requests to
the data partition.  After an error the handler drops what has still to be
written. -/
def acceptedAfter (accepted : Set ℕ) (s : State σ β) :
    Except TapeError Unit → Set ℕ
  | .ok _ => accepted
  | .error _ => surviving accepted s

/-- A step that keeps the file leaves it intact, at least with what is in its
extents. -/
theorem Keeps.surviving {r : TapeCall (State σ β) Unit} {f : SparseFile β}
    (hkeeps : Keeps m k f s r) (hpriv : FileOk s)
    (hsound : SoundFile m.blockSize s.fileState) :
    IntactUpTo m k (surviving accepted s) r.2 := by
  obtain ⟨hok, k', hle, g, hg⟩ := hkeeps.intact hpriv
  refine ⟨k', hle, ⟨g, hg, ?_⟩, hok⟩
  rintro x ⟨-, hx⟩
  exact hg.isSome (hkeeps.covers x ((isSome_cellsOf hsound).2 hx))

theorem IntactOver.keeps {r : TapeCall (State σ β) Unit}
    (h : IntactOver m ((cellsOf m.blockSize s.fileState).pad k) accepted s)
    (hkeeps : ∀ f, PaddedInv m k f s → Keeps m k f s r) :
    IntactUpTo m k (acceptedAfter accepted s r.1) r.2 ∧
      s.raw.vol.device.Grows r.2.raw.vol.device := by
  obtain ⟨⟨f, hf, hall⟩, hpriv⟩ := h
  have hkeeps := hkeeps f hf
  refine ⟨?_, hkeeps.grows⟩
  obtain ⟨_ | _, t⟩ := r
  · exact hkeeps.surviving hpriv hf.sound
  · obtain ⟨k', hle, g, hg, hbyte, -⟩ := hkeeps.inv (.inl rfl)
    exact ⟨k', hle, ⟨g, hg, fun x hx => hbyte ▸ hall x hx⟩, (hkeeps.intact hpriv).1⟩

theorem Intact.flush (C : Catalog σ (List β)) (h : Intact m accepted s) :
    Intact m (acceptedAfter accepted s (unifiedFlushUnlocked C m s).1)
        (unifiedFlushUnlocked C m s).2 ∧
      s.raw.vol.device.Grows (unifiedFlushUnlocked C m s).2.raw.vol.device := by
  rw [← intactUpTo_zero]
  exact IntactOver.keeps (by rwa [ByteFile.pad_zero])
    fun _ => unifiedFlushUnlocked_spec C

open Classical in
/-- The offsets that have been accepted behind a step that writes to the index
partition.  If that is full the handler keeps what has still to be written to
the data partition, unless that cannot be written either. -/
noncomputable def acceptedAfterIndex (accepted : Set ℕ) (s : State σ β)
    (r : TapeCall (State σ β) Unit) : Set ℕ :=
  if KeepsPending r.2.raw.vol.device r.1 then accepted else surviving accepted s

theorem unifiedProcessIndexQueue_intact (C : Catalog σ (List β))
    (h : Intact m accepted s) :
    Intact m (acceptedAfterIndex accepted s (unifiedProcessIndexQueue C m s))
        (unifiedProcessIndexQueue C m s).2 ∧
      s.raw.vol.device.Grows
        (unifiedProcessIndexQueue C m s).2.raw.vol.device := by
  obtain ⟨⟨f, hf, hall⟩, hpriv⟩ := h
  obtain ⟨hkeeps, hpending⟩ := unifiedProcessIndexQueue_spec C hf
  refine ⟨?_, hkeeps.grows⟩
  rw [acceptedAfterIndex]
  split_ifs with hfull
  · obtain ⟨g, hg, hsome⟩ := hpending hfull
    exact ⟨⟨g, hg, fun x hx => hsome x (hall x hx)⟩, (hkeeps.intact hpriv).1⟩
  · exact intactUpTo_zero.1 (hkeeps.surviving hpriv hf.sound)

/-! ## Requests that have been taken out of the list -/

/-- The accepted offsets that are left when a request that has been taken out of the
list could not be sent: those in the extents, and those in the list. -/
def unlost (accepted : Set ℕ) (s : State σ β) : Set ℕ :=
  {x ∈ accepted | Covered s.file.dentry.extents x ∨
    ∃ r ∈ s.file.requests, r.offset ≤ x ∧ x < r.stop}

/-- A request that could not be sent leaves the file as it was. -/
theorem FileInvOver.unsent (C : Catalog σ (List β)) {f : SparseFile β}
    {requests : List (WriteRequest β)} {req : WriteRequest β}
    (h : FileInvOver m (putAll requests (cellsOf m.blockSize s.fileState)) f s)
    (hpos : 0 < req.count) (hbound : req.stop ≤ 2 ^ 63) (e : TapeError)
    (hfails : (writeOut C m req s).1 = .error e) :
    FileInvOver m (putAll requests
      (cellsOf m.blockSize (writeOut C m req s).2.fileState)) f
      (writeOut C m req s).2 := by
  obtain ⟨hsound, -, hfile⟩ := writeOut_sound C h.sound hpos hbound
  simp only [hfails] at hfile
  have hsize : (writeOut C m req s).2.file.fileSize = s.file.fileSize := by
    have hpriv : (writeOut C m req s).2.file.ioschedPriv = s.file.ioschedPriv := rfl
    rw [File.fileSize, File.fileSize, hpriv]
    cases s.file.ioschedPriv with
    | some p => rfl
    | none => exact congrArg ByteFile.size hfile
  refine ⟨hsound, ?_, h.bound⟩
  rw [hfile, hsize]
  exact h.list

/-- The requests that have been taken out of the list are lost.  None of those in
the list relied on them. -/
theorem IntactOver.lose {requests : List (WriteRequest β)}
    (h : IntactOver m (putAll requests (cellsOf m.blockSize s.fileState)) accepted s)
    (hnot : NotIp s.file) :
    ∃ k, IntactOver m ((cellsOf m.blockSize s.fileState).pad k) (unlost accepted s)
      s := by
  obtain ⟨⟨f, hf, -⟩, hpriv⟩ := h
  obtain ⟨hshows, hsound, horder⟩ := hf.list
  have hsize : (cellsOf m.blockSize s.fileState).size ≤ s.file.fileSize :=
    (size_le_putAll ..).trans hshows.above
  have hpad : ((cellsOf m.blockSize s.fileState).pad s.file.fileSize).size =
      s.file.fileSize := max_eq_left hsize
  obtain ⟨g, hg⟩ := exists_listInv m.cacheSize
    ((cellsOf m.blockSize s.fileState).pad s.file.fileSize)
    (fun r hr => ⟨(hsound r hr).1, fun hip => absurd hip (hnot r hr)⟩) horder
    hshows.within hpad.le (fun hlt => absurd hpad hlt.ne)
  refine ⟨s.file.fileSize, ⟨g, ⟨hf.sound, hg, ?_⟩, ?_⟩, hpriv⟩
  · rw [hg.shows.size, ← hshows.size]
    exact hf.bound
  · rintro x ⟨-, hx⟩
    refine hg.shows.isSome (hx.imp (fun hx => (isSome_cellsOf hf.sound).2 hx) ?_)
    rintro ⟨r, hr, hlo, hhi⟩
    rw [Segments.lookup_of_mem _ horder hr hlo hhi]
    rfl

/-- Recording the failure drops what is in the list. -/
theorem recordFailure_intact (e : TapeError)
    (h : IntactOver m ((cellsOf m.blockSize s.fileState).pad k) accepted s) :
    Intact m (surviving accepted s) (recordFailure e s) := by
  obtain ⟨⟨f, hf, hall⟩, hpriv⟩ := h
  have hsome : ∀ {t : State σ β} {g}, t.fileState = s.fileState → FileInv m g t →
      ∀ x ∈ surviving accepted s, (g.byte x).isSome := by
    rintro t g hsame hg x ⟨-, hx⟩
    refine (paddedInv_zero.2 hg).isSome ?_
    rw [hsame]
    exact (isSome_cellsOf hf.sound).2 hx
  rw [recordFailure]
  cases hp : s.file.ioschedPriv with
  | none =>
    have hlist := hf.list
    have hinv : FileInv m (cellsOf m.blockSize s.fileState) s := by
      refine fileInv_fresh hf.sound hp ?_
      exact ((le_max_right k _).trans hlist.shows.above).trans
        (hlist.shows.size.symm.le.trans hf.bound)
    exact ⟨⟨_, hinv, hsome rfl hinv⟩, hpriv⟩
  | some p =>
    obtain ⟨g, hg, -⟩ := handleWriteError_shows hf.sound (hf.privList hp) hf.bound
      (some e) false
    exact ⟨⟨g, hg, hsome (t := s.withPriv _) rfl hg⟩, .withPriv ((hpriv p hp).handle ..)⟩

end Steps

end AuroraLtfs.Sched
