import AuroraLtfs.Sched.Private
import AuroraLtfs.Sched.WriteWhole

/-!
# The scheduler keeps the file

The steps of the scheduler that leave the tape alone keep the queue and what
libltfs has of the file in such a way that together they show the file: a write
queues its bytes, a truncation cuts it, and a change of the data placement leaves
it as it is.
-/

namespace AuroraLtfs.Sched

open AuroraLtfs.Tape
open AuroraLtfs.Index
open AuroraLtfs.Raw
open RequestState

variable {σ β : Type*} {raw : SparseFile β} {cs : ℕ}

/-- The requests over the file `below` show `f`. -/
structure FileInvOver [Zero β] (m : Mount) (below f : SparseFile β)
    (s : State σ β) : Prop where
  sound : SoundFile m.blockSize s.fileState
  list : ListInv m.cacheSize below f s.file.requests s.file.fileSize
  bound : f.size ≤ 2 ^ 63

/-- The requests over what libltfs has of the file, taken to have at least `k`
bytes, show `f`. -/
abbrev PaddedInv [Zero β] (m : Mount) (k : ℕ) (f : SparseFile β)
    (s : State σ β) : Prop :=
  FileInvOver m ((cellsOf m.blockSize s.fileState).pad k) f s

/-- The requests over what libltfs has of the file show `f`. -/
abbrev FileInv [Zero β] (m : Mount) (f : SparseFile β) (s : State σ β) : Prop :=
  FileInvOver m (cellsOf m.blockSize s.fileState) f s

/-- No request waits for the index partition. -/
def NotIp (f : File β) : Prop := ∀ r ∈ f.requests, ¬r.IsIp

theorem notIp_priv {f : File β} {p : DentryPriv β} (h : NotIp f)
    (hp : f.ioschedPriv = some p) : ∀ r ∈ p.requests, ¬r.IsIp := by
  rw [NotIp, File.requests, hp] at h
  exact h

/-- A step that leaves the requests, the size, and what libltfs has of the file
alone. -/
structure Unmoved (s t : State σ β) : Prop where
  fileState : t.fileState = s.fileState
  handed : t.handed = s.handed
  requests : t.file.requests = s.file.requests
  fileSize : t.file.fileSize = s.file.fileSize
  priv : FileOk s → FileOk t

theorem Unmoved.trans {s t u : State σ β} (hst : Unmoved s t) (htu : Unmoved t u) :
    Unmoved s u :=
  ⟨htu.fileState.trans hst.fileState, htu.handed.trans hst.handed,
    htu.requests.trans hst.requests, htu.fileSize.trans hst.fileSize,
    fun hok => htu.priv (hst.priv hok)⟩

theorem FileInvOver.unmoved [Zero β] {m : Mount} {f : SparseFile β}
    {s t : State σ β} (h : FileInvOver m raw f s) (hmoved : Unmoved s t) :
    FileInvOver m raw f t := by
  refine ⟨hmoved.fileState ▸ h.sound, ?_, h.bound⟩
  rw [hmoved.requests, hmoved.fileSize]
  exact h.list

theorem PaddedInv.unmoved [Zero β] {m : Mount} {k : ℕ} {f : SparseFile β}
    {s t : State σ β} (h : PaddedInv m k f s) (hmoved : Unmoved s t) :
    PaddedInv m k f t := by
  rw [PaddedInv, hmoved.fileState]
  exact FileInvOver.unmoved h hmoved

section Placement

variable {m : Mount} {f : SparseFile β} {s : State σ β} {p : DentryPriv β}

/-- Taking the file off the index partition drops only what the file below
has. -/
theorem ListInv.unset (h : ListInv cs raw f p.requests p.fileSize) :
    ListInv cs raw f (unifiedUnsetWriteIp p).requests
      (unifiedUnsetWriteIp p).fileSize := by
  rw [unset_requests, unset_fileSize]
  exact ListInv.dropIp (a := []) h

variable [Zero β]

theorem paddedInv_zero : PaddedInv m 0 f s ↔ FileInv m f s := by
  rw [PaddedInv, ByteFile.pad_zero]

/-- The list of a file whose private data is `p`. -/
theorem FileInvOver.privList (h : FileInvOver m raw f s)
    (hp : s.file.ioschedPriv = some p) :
    ListInv m.cacheSize raw f p.requests p.fileSize := by
  have hlist := h.list
  rw [File.requests, File.fileSize, hp] at hlist
  exact hlist

/-- The private data may be replaced by one with a list that shows the same
file. -/
theorem FileInvOver.withPriv (h : FileInvOver m raw f s)
    (hlist : ListInv m.cacheSize raw f p.requests p.fileSize) :
    FileInvOver m raw f (s.withPriv p) :=
  ⟨h.sound, hlist, h.bound⟩

/-- What libltfs has of the file is no hole of it. -/
theorem PaddedInv.isSome {k : ℕ} (h : PaddedInv m k f s) {x : ℕ}
    (hx : ((cellsOf m.blockSize s.fileState).byte x).isSome) : (f.byte x).isSome :=
  h.list.shows.isSome (.inl hx)

/-- Allocating the private data shows the same file.  New private data has no
requests, no error and no alternate extents. -/
theorem FileInvOver.getPriv (h : FileInvOver m raw f s) :
    ∃ p, (unifiedGetDentryPriv m s.file).ioschedPriv = some p ∧
      FileInvOver m raw f { s with file := unifiedGetDentryPriv m s.file } ∧
      (FileOk s → PrivOk p) := by
  have hlist := h.list
  rw [File.requests, File.fileSize] at hlist
  rw [unifiedGetDentryPriv]
  cases hp : s.file.ioschedPriv with
  | some p => exact ⟨p, hp, h, fun hok => hok p hp⟩
  | none =>
    rw [hp] at hlist
    exact ⟨_, rfl, ⟨h.sound, hlist, h.bound⟩,
      fun _ => ⟨fun herror => absurd rfl herror, by simp, rfl⟩⟩

omit [Zero β] in
theorem place_dentry (m : Mount) (f : File β) :
    (unifiedUpdateDataPlacement m f).dentry = f.dentry := by
  rw [unifiedUpdateDataPlacement]
  split <;> rfl

omit [Zero β] in
theorem place_notIp {f : File β} (h : NotIp f) :
    NotIp (unifiedUpdateDataPlacement m f) := by
  rw [NotIp, File.requests] at h ⊢
  rw [unifiedUpdateDataPlacement]
  cases hp : f.ioschedPriv with
  | none =>
    rw [hp]
    simp
  | some p =>
    rw [hp] at h
    dsimp only at h ⊢
    split_ifs
    · exact h
    · rw [unset_requests]
      exact fun r hr => h r (List.mem_filter.1 hr).1
    · exact h

/-- Renaming or unlinking the file. -/
theorem unifiedUpdateDataPlacement_spec (h : FileInvOver m raw f s) :
    FileInvOver m raw f { s with file := unifiedUpdateDataPlacement m s.file } ∧
      (FileOk s → FileOk { s with file := unifiedUpdateDataPlacement m s.file }) := by
  have hdentry := place_dentry m s.file
  have hsound : SoundFile m.blockSize
      ({ s with file := unifiedUpdateDataPlacement m s.file } : State σ β).fileState := by
    rw [State.fileState, hdentry]
    exact h.sound
  rw [unifiedUpdateDataPlacement] at hsound ⊢
  cases hp : s.file.ioschedPriv with
  | none => exact ⟨h, id⟩
  | some p =>
    have hlist := h.privList hp
    rw [hp] at hsound
    constructor
    · refine ⟨hsound, ?_, h.bound⟩
      simp only [File.requests, File.fileSize]
      split_ifs
      · exact hlist
      · exact hlist.unset
      · exact hlist
    · intro hok
      apply FileOk.withPriv
      split_ifs
      · exact (hok p hp).setWriteIp
      · exact (hok p hp).unset
      · exact hok p hp

/-- The bytes of `f` are still there, over what libltfs has of the file and at most
`k` bytes.  Only where there are zeros behind it may the file become shorter. -/
def Kept (m : Mount) (k : ℕ) (f : SparseFile β) (s : State σ β) : Prop :=
  ∃ k' ≤ k, ∃ g : SparseFile β, PaddedInv m k' g s ∧ g.byte = f.byte ∧ (k = 0 → g = f)

theorem PaddedInv.kept {k : ℕ} (h : PaddedInv m k f s) : Kept m k f s :=
  ⟨k, le_rfl, f, h, rfl, fun _ => rfl⟩

theorem Kept.fileInv (h : Kept m 0 f s) : FileInv m f s := by
  obtain ⟨k, hle, g, hg, -, hsame⟩ := h
  obtain rfl : k = 0 := by omega
  rw [hsame rfl] at hg
  exact paddedInv_zero.1 hg

theorem Kept.trans {k : ℕ} {t : State σ β} (h : Kept m k f s)
    (hnext : ∀ k' ≤ k, ∀ g, PaddedInv m k' g s → Kept m k' g t) : Kept m k f t := by
  obtain ⟨k', hle, g, hg, hbyte, hsame⟩ := h
  obtain ⟨k'', hle', g', hg', hbyte', hsame'⟩ := hnext k' hle g hg
  refine ⟨k'', hle'.trans hle, g', hg', hbyte'.trans hbyte, fun hzero => ?_⟩
  rw [hsame' (by omega), hsame hzero]

/-- Freeing the private data of a file without requests leaves its bytes. -/
theorem unifiedFreeDentryPrivConditional_spec {k : ℕ} (h : PaddedInv m k f s)
    (targetHandles : ℕ) :
    Kept m k f
        { s with file := unifiedFreeDentryPrivConditional targetHandles s.file } ∧
      (FileOk s → FileOk
        { s with file := unifiedFreeDentryPrivConditional targetHandles s.file }) := by
  rw [unifiedFreeDentryPrivConditional]
  cases hp : s.file.ioschedPriv with
  | none => exact ⟨h.kept, id⟩
  | some p =>
    dsimp only
    split_ifs with hfree
    · obtain ⟨hsize, -, hbytes, habove, htop⟩ := (h.privList hp).shows
      rw [hfree.2.1] at hbytes htop
      refine ⟨⟨0, k.zero_le, cellsOf m.blockSize s.fileState, ?_, ?_, ?_⟩, by simp [FileOk]⟩
      · exact paddedInv_zero.2 ⟨h.sound, listInv_nil _ _,
          ((le_max_right k _).trans habove).trans (hsize.symm.le.trans h.bound)⟩
      · exact (funext hbytes).symm
      · rintro rfl
        rw [ByteFile.pad_zero] at habove htop
        refine ByteFile.ext ?_ (funext hbytes).symm
        rw [hsize]
        by_contra hne
        exact absurd (htop (lt_of_le_of_ne habove hne)) (by simp)
    · exact ⟨h.kept, id⟩

end Placement

section Write

variable {m : Mount} {f : SparseFile β} {s : State σ β} {p : DentryPriv β}
  {blocks offset : ℕ} {bytes : List β}

/-- What a write is queued into. -/
def writeQueue (blocks offset : ℕ) (bytes : List β)
    (requests : List (WriteRequest β)) (fileSize : ℕ) : Queue β :=
  { requests := requests
    fileSize := fileSize
    offset := offset
    bytes := bytes
    blocks := blocks }

/-- The write goes between two requests for the index partition and is
garbled, unless the file is taken off the index partition before. -/
def GarblesWrite (m : Mount) (blocks offset : ℕ) (bytes : List β)
    (s : State σ β) : Prop :=
  ∃ p, s.file.ioschedPriv = some p ∧
    Garbles m.cacheSize (writeQueue blocks offset bytes p.requests p.fileSize) ∧
    ¬(p.writeIp ∧ (m.maxFilesize < offset + bytes.length ∨
      partitionOutOfSpace .ip s.raw.vol.device))

/-- Without requests for the index partition nothing is garbled. -/
theorem not_garbles {q : Queue β} (h : ∀ r ∈ q.requests, ¬r.IsIp) : ¬Garbles cs q := by
  rintro ⟨-, a, r, t, b, hsplit, hr, -⟩
  exact h r (by simp [hsplit]) hr

section QueueWrite

variable (h : ListInv m.cacheSize raw f p.requests p.fileSize) (hbytes : bytes ≠ [])
  (hclean : ¬Garbles m.cacheSize (writeQueue blocks offset bytes p.requests p.fileSize))

include h hbytes hclean

/-- Queueing a write in the list. -/
theorem queueWrite_spec :
    ListInv m.cacheSize raw
      (f.put offset (bytes.take (queueWrite m blocks offset bytes p).1))
      (queueWrite m blocks offset bytes p).2.requests
      (queueWrite m blocks offset bytes p).2.fileSize := by
  obtain ⟨g, ⟨n, hn, hg, -, hleft⟩, hlist, -⟩ := writeRequests_spec
    (q := writeQueue blocks offset bytes p.requests p.fileSize)
    m.cacheSize_pos h hbytes hclean (p.requests.length + bytes.length)
  have hcount : (queueWrite m blocks offset bytes p).1 = n := by
    have hlength := congrArg List.length hleft
    rw [List.length_drop] at hlength
    have hall : n ≤ bytes.length := hn
    exact (congrArg (bytes.length - ·) hlength).trans (Nat.sub_sub_self hall)
  rw [hcount]
  exact hg ▸ hlist

/-- A write that finds enough cache blocks is queued whole. -/
theorem queueWrite_whole (hblocks : bytes.length < blocks) :
    (queueWrite m blocks offset bytes p).1 = bytes.length := by
  have hfinished := writeRequests_finishes
    (q := writeQueue blocks offset bytes p.requests p.fileSize)
    m.cacheSize_pos h hbytes hclean hblocks (p.requests.length + bytes.length)
  obtain ⟨-, -, -, -, hdone⟩ := writeRequests_spec
    (q := writeQueue blocks offset bytes p.requests p.fileSize)
    m.cacheSize_pos h hbytes hclean (p.requests.length + bytes.length)
  have hnone := congrArg List.length (hdone hfinished)
  exact (congrArg (bytes.length - ·) hnone).trans (Nat.sub_zero _)

end QueueWrite

/-- Without requests for the index partition a write makes none. -/
theorem queueWrite_notIp (hlist : ListInv m.cacheSize raw f p.requests p.fileSize)
    (hbytes : bytes ≠ [])
    (hclean : ¬Garbles m.cacheSize
      (writeQueue blocks offset bytes p.requests p.fileSize))
    (hnot : ∀ r ∈ p.requests, ¬r.IsIp) :
    ∀ r ∈ (queueWrite m blocks offset bytes p).2.requests, ¬r.IsIp := by
  intro r hr hip
  -- the list also shows some file over one that has only holes, but no
  -- request for the index partition does
  obtain ⟨g, hg⟩ := exists_listInv m.cacheSize
    ⟨raw.size, fun _ => none, fun _ _ => rfl⟩
    (fun x hx => ⟨(hlist.sound x hx).1, fun hip => absurd hip (hnot x hx)⟩)
    hlist.order hlist.shows.within hlist.shows.above hlist.shows.top
  obtain ⟨hfits, hbacked⟩ := (queueWrite_spec hg hbytes hclean).sound r hr
  have hstop : r.offset < r.stop := Nat.lt_add_of_pos_right hfits.1
  have hsome := isSome_get le_rfl hstop
  rw [(hbacked hip).2 r.offset le_rfl hstop] at hsome
  simp at hsome

theorem PrivOk.queueWrite (h : PrivOk p)
    (hlist : ListInv m.cacheSize raw f p.requests p.fileSize) (hbytes : bytes ≠ [])
    (hclean : ¬Garbles m.cacheSize
      (writeQueue blocks offset bytes p.requests p.fileSize))
    (hnone : p.writeError = none) :
    PrivOk (queueWrite m blocks offset bytes p).2 where
  cleared := by
    intro herror
    exact absurd hnone herror
  placed := fun hoff => queueWrite_notIp hlist hbytes hclean (h.placed hoff)
  linked := h.linked

/-- The file behind a write: one that is refused changes nothing. -/
def afterWrite (f : SparseFile β) (offset : ℕ) (bytes : List β) :
    Except TapeError ℕ → SparseFile β
  | .ok n => f.put offset (bytes.take n)
  | .error _ => f

theorem size_afterWrite (hbound : f.size ≤ 2 ^ 63)
    (hrange : offset + bytes.length ≤ 2 ^ 63) (ret : Except TapeError ℕ) :
    (afterWrite f offset bytes ret).size ≤ 2 ^ 63 := by
  cases ret with
  | error e => exact hbound
  | ok n =>
    have hlength := List.length_take_le n bytes
    have hlength' := List.length_take_le' n bytes
    rw [afterWrite, ByteFile.put_size]
    split_ifs
    · exact hbound
    · exact max_le hbound (by omega)

/-- A write queues no more than it was given. -/
theorem unifiedWrite_le (m : Mount) (resumed : Bool) (blocks offset : ℕ)
    (bytes : List β) (s : State σ β) :
    ∀ n, (unifiedWrite m resumed blocks offset bytes s).1 = .ok n →
      n ≤ bytes.length := by
  rw [unifiedWrite]
  split
  · rintro n ⟨rfl⟩
    exact Nat.zero_le _
  dsimp only
  split
  · rintro n ⟨rfl⟩
    exact Nat.zero_le _
  split
  · rintro n ⟨⟩
  split
  · rintro n ⟨⟩
  · rintro n ⟨rfl⟩
    exact Nat.sub_le _ _

/-- The placement keeps the list. -/
theorem placeWrite_list (stop : ℕ) (d : Device (List β))
    (h : ListInv m.cacheSize raw f p.requests p.fileSize) :
    ListInv m.cacheSize raw f (placeWrite m stop d p).requests
      (placeWrite m stop d p).fileSize := by
  rw [placeWrite]
  split_ifs
  · exact h.unset
  · exact h

/-- Behind the placement a write is garbled only as it was before. -/
theorem placeWrite_clean (hp : (unifiedGetDentryPriv m s.file).ioschedPriv = some p)
    (hclean : ¬GarblesWrite m blocks offset bytes s) :
    ¬Garbles m.cacheSize (writeQueue blocks offset bytes
      (placeWrite m (offset + bytes.length) s.raw.vol.device p).requests
      (placeWrite m (offset + bytes.length) s.raw.vol.device p).fileSize) := by
  rw [placeWrite]
  split_ifs with hleaves
  · apply not_garbles
    intro r hr
    have hr : r ∈ (unifiedUnsetWriteIp p).requests := hr
    rw [unset_requests, List.mem_filter] at hr
    simpa using hr.2
  · rw [unifiedGetDentryPriv] at hp
    cases hpriv : s.file.ioschedPriv with
    | some q =>
      rw [hpriv] at hp
      obtain rfl : q = p := by
        rw [hpriv] at hp
        exact Option.some.inj hp
      exact fun hgarbles => hclean ⟨q, hpriv, hgarbles, hleaves⟩
    | none =>
      -- new private data has no requests
      rw [hpriv] at hp
      obtain rfl := Option.some.inj hp
      exact not_garbles (by simp [writeQueue])

variable [Zero β]

/-- What the part of a write that holds the lock leaves: as many bytes are queued
as it reports. -/
structure Written (m : Mount) (raw f : SparseFile β) (offset : ℕ) (bytes : List β)
    (s : State σ β) (r : TapeCall (State σ β) ℕ) : Prop where
  inv : FileInvOver m raw (afterWrite f offset bytes r.1) r.2
  priv : FileOk s → FileOk r.2
  notIp : NotIp s.file → NotIp r.2.file
  handed : r.2.handed = s.handed
  fileState : r.2.fileState = s.fileState

omit [Zero β] in
theorem getPriv_dentry (m : Mount) (f : File β) :
    (unifiedGetDentryPriv m f).dentry = f.dentry := by
  rw [unifiedGetDentryPriv]
  split <;> rfl

omit [Zero β] in
/-- New private data has no requests. -/
theorem getPriv_notIp {f : File β} (h : NotIp f) : NotIp (unifiedGetDentryPriv m f) := by
  rw [NotIp, File.requests] at h ⊢
  rw [unifiedGetDentryPriv]
  cases hp : f.ioschedPriv with
  | none => simp
  | some p =>
    rw [hp] at h
    dsimp only
    rw [hp]
    exact h

omit [Zero β] in
theorem placeWrite_notIp (stop : ℕ) (d : Device (List β))
    (h : ∀ r ∈ p.requests, ¬r.IsIp) : ∀ r ∈ (placeWrite m stop d p).requests, ¬r.IsIp := by
  rw [placeWrite]
  split_ifs
  · rw [unset_requests]
    exact fun r hr => h r (List.mem_filter.1 hr).1
  · exact h

theorem unifiedWrite_spec (h : FileInvOver m raw f s) (resumed : Bool)
    (hrange : offset + bytes.length ≤ 2 ^ 63)
    (hclean : ¬GarblesWrite m blocks offset bytes s) :
    Written m raw f offset bytes s
      (unifiedWrite m resumed blocks offset bytes s) := by
  rw [unifiedWrite]
  by_cases hbytes : bytes = []
  · rw [if_pos hbytes]
    exact ⟨by simpa [afterWrite] using h, id, id, rfl, rfl⟩
  rw [if_neg hbytes]
  have hsame : ({ s with file := unifiedGetDentryPriv m s.file } :
      State σ β).fileState = s.fileState :=
    Prod.ext rfl (getPriv_dentry m s.file)
  have hnotIp := getPriv_notIp (m := m) (f := s.file)
  obtain ⟨p, hp, hinv, hpriv⟩ := h.getPriv
  have hlist := hinv.privList hp
  dsimp only
  split
  · next hnone => simp [hp] at hnone
  next q hq =>
  obtain rfl : p = q := by simpa [hp] using hq
  split
  · exact ⟨hinv.withPriv hlist, fun hok => .withPriv (hpriv hok).forgetError,
      fun hnot => (notIp_priv (hnotIp hnot) hp :), rfl, hsame⟩
  next hnone =>
  split
  · refine ⟨hinv, fun hok q hq => ?_, hnotIp, rfl, hsame⟩
    obtain rfl := Option.some.inj (hp.symm.trans hq)
    exact hpriv hok
  -- after the placement the write is queued as it is
  obtain ⟨placed, hplaced⟩ : ∃ placed, placed = placeWrite m
    (offset + bytes.length) s.raw.vol.device p := ⟨_, rfl⟩
  have hclean' : ¬Garbles m.cacheSize
      (writeQueue blocks offset bytes placed.requests placed.fileSize) := by
    rw [hplaced]
    exact placeWrite_clean hp hclean
  have hlist' := placeWrite_list (m := m) (offset + bytes.length) s.raw.vol.device hlist
  have herror : placed.writeError = none := by
    rw [hplaced, placeWrite_writeError, hnone]
  have hpriv' : FileOk s → PrivOk placed :=
    fun hok => hplaced ▸ (hpriv hok).placeWrite _ _
  rw [← hplaced] at hlist' ⊢
  exact ⟨⟨hinv.sound, queueWrite_spec hlist' hbytes hclean',
      size_afterWrite h.bound hrange (.ok _)⟩,
    fun hok => .withPriv ((hpriv' hok).queueWrite hlist' hbytes hclean' herror),
    fun hnot => queueWrite_notIp hlist' hbytes hclean' (hplaced ▸
      placeWrite_notIp _ _ (notIp_priv (hnotIp hnot) hp)), rfl, hsame⟩

end Write

section Truncate

variable {m : Mount} {f : SparseFile β} {s : State σ β} {p : DentryPriv β}
  {length : ℕ}

/-- The file behind a truncation: one that is refused changes nothing. -/
def afterTruncate (f : SparseFile β) (length : ℕ) :
    Except TapeError Unit → SparseFile β
  | .ok _ => f.truncate length
  | .error _ => f

/-- The requests that a cut leaves. -/
theorem cutPriv_requests (h : ListInv cs raw f p.requests p.fileSize) :
    (cutPriv length p).requests = cutRequests length p.requests := by
  have hfits : ∀ r ∈ p.requests, 0 < r.count :=
    fun r hr => (h.sound r hr).1.1
  rw [cutPriv]
  split_ifs with hshorter
  · dsimp only
    rw [truncateRequests_eq p.requests.reverse
      (fun r hr => hfits r (List.mem_reverse.1 hr))
      (by rw [List.reverse_reverse]; exact h.order), List.reverse_reverse]
  · exact (cutRequests_of_le hfits fun r hr =>
      (h.shows.within r hr).trans (not_lt.1 hshorter)).symm

/-- Cutting the private data cuts the list. -/
theorem cutPriv_list (h : ListInv cs raw f p.requests p.fileSize) :
    ListInv cs (raw.truncate length) (f.truncate length)
      (cutPriv length p).requests (cutPriv length p).fileSize := by
  have hsize : (cutPriv length p).fileSize = length := by
    rw [cutPriv]
    split_ifs <;> rfl
  rw [cutPriv_requests h, hsize]
  exact h.truncate length

/-- Not all alternate extents of a file that has some lie behind `length`. -/
def KeepsAltExtents (length : ℕ) (s : State σ β) : Prop :=
  ∀ p, s.file.ioschedPriv = some p → p.altExtentlist ≠ [] →
    length < p.fileSize → truncateAltExtents length p.altExtentlist ≠ []

theorem PrivOk.cut (h : PrivOk p) (hlist : ListInv cs raw f p.requests p.fileSize)
    (hkeeps : p.altExtentlist ≠ [] → length < p.fileSize →
      truncateAltExtents length p.altExtentlist ≠ []) : PrivOk (cutPriv length p) := by
  have hmem : ∀ r ∈ (cutPriv length p).requests, ∃ r' ∈ p.requests, (r.IsIp ↔ r'.IsIp) := by
    rw [cutPriv_requests hlist]
    intro r hr
    obtain ⟨r', hr', rfl⟩ := List.mem_map.1 hr
    exact ⟨r', (List.mem_filter.1 hr').1, Iff.rfl⟩
  have hsame : (cutPriv length p).writeError = p.writeError ∧
      (cutPriv length p).writeIp = p.writeIp ∧
      (cutPriv length p).extLinks = p.extLinks := by
    rw [cutPriv]
    split_ifs <;> exact ⟨rfl, rfl, rfl⟩
  refine ⟨?_, ?_, ?_⟩
  · rw [hsame.1]
    intro herror r hr
    obtain ⟨r', hr', hip⟩ := hmem r hr
    exact hip.2 (h.cleared herror r' hr')
  · rw [hsame.2.1]
    intro hoff r hr
    obtain ⟨r', hr', hip⟩ := hmem r hr
    exact fun hr => h.placed hoff r' hr' (hip.1 hr)
  · have halt : (cutPriv length p).altExtentlist = [] ↔ p.altExtentlist = [] := by
      rw [cutPriv]
      split_ifs with hshorter
      · constructor
        · intro hcut
          by_contra hsome
          exact hkeeps hsome hshorter hcut
        · intro hnone
          simp [hnone, truncateAltExtents]
      · rfl
    rw [hsame.2.2, h.linked]
    simp only [halt]

theorem placeTruncate_list (file : File β) (h : ListInv cs raw f p.requests p.fileSize) :
    ListInv cs raw f (placeTruncate m length file p).requests
      (placeTruncate m length file p).fileSize := by
  rw [placeTruncate]
  split_ifs
  · exact h
  · exact h.unset
  · exact h

variable [Zero β]

/-- A truncation cuts the file, unless the volume refuses it. -/
theorem unifiedTruncate_spec {k : ℕ} (h : PaddedInv m k f s) (hrange : length ≤ 2 ^ 63) :
    (∃ k' ≤ k, PaddedInv m k' (afterTruncate f length (unifiedTruncate m length s).1)
        (unifiedTruncate m length s).2) ∧
      (FileOk s → KeepsAltExtents length s →
        FileOk (unifiedTruncate m length s).2) ∧
      (unifiedTruncate m length s).2.handed = s.handed ∧
      (unifiedTruncate m length s).2.raw = s.raw := by
  rw [unifiedTruncate]
  cases ltfsGetVolumeReadonly m s.raw.vol.device with
  | error e => exact ⟨⟨k, le_rfl, h⟩, fun hok _ => hok, rfl, rfl⟩
  | ok x =>
    obtain ⟨hvalid, hcontents⟩ := ltfsFsrawTruncate_spec h.sound.dentry length
    have hbelow : cells m.blockSize s.raw.vol.device.medium
        (ltfsFsrawTruncate length s.file.dentry) =
          (cellsOf m.blockSize s.fileState).truncate length := hcontents
    refine ⟨⟨0, k.zero_le, ⟨h.sound.sane, hvalid⟩, ?_, hrange⟩, ?_, rfl, rfl⟩
    · simp only [cellsOf, State.fileState, File.requests, File.fileSize, hbelow,
        ByteFile.pad_zero]
      rw [← ByteFile.pad_truncate _ k]
      cases hp : s.file.ioschedPriv with
      | none =>
        have hlist := h.list
        rw [File.requests, File.fileSize, hp] at hlist
        exact hlist.truncate length
      | some p =>
        exact placeTruncate_list s.file (cutPriv_list (h.privList hp))
    · intro hok hkeeps q hq
      obtain ⟨p, hp, rfl⟩ := Option.map_eq_some_iff.1 hq
      exact ((hok p hp).cut (h.privList hp) (hkeeps p hp)).placeTruncate length s.file

end Truncate

end AuroraLtfs.Sched
