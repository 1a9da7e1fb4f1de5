import AuroraLtfs.Index.Interval

/-!
# The chain of back pointers

Full indexes are linked by their back pointers through the data partition, and the
incremental indexes since the last full index by theirs.  Along every sequence of
successful index writes the pointers visit exactly the indexes that were written there,
if the XML writer comes to the end of every document.  It need not: the call succeeds all
the same, and where it has put its document no index is found.
-/

namespace AuroraLtfs.Index

open AuroraLtfs.Tape

variable {σ π : Type*} {C : Catalog σ π}

/-- A back pointer as a document has it: without a block it is left out. -/
def written (o : TapeOffset) : TapeOffset := if o.block = 0 then ⟨none, 0⟩ else o

/-- A reader of the documents of `C`: the self pointer and the back pointer that a section
has as a full and as an incremental index.  They are those of the header if the document
of the tree is `Complete`. -/
structure Reader (C : Catalog σ π) where
  full : List π → Option (TapeOffset × TapeOffset)
  incremental : List π → Option (TapeOffset × TapeOffset)
  Complete : σ → Prop
  full_schema : ∀ h t, Complete t →
    full (C.schema h t) = some (h.selfptr, written h.backptr)
  incremental_incSchema : ∀ h t, Complete t →
    incremental (C.incSchema h t) = some (h.selfptrInc, written h.backptrInc)

/-! ## Following pointers -/

/-- The blocks `bl` start at block `b`, and a file mark ends them. -/
def SectionAt (rs : List (Record π)) (b : ℕ) (bl : List π) : Prop :=
  ∀ i ≤ bl.length, rs[b + i]? = (blocks bl ++ [.filemark])[i]?

/-- The pointers from `o` on visit these places, where `there` says which section lies
at a place, and `read` which pointers it has. -/
def Visits (there : Position → List π → Prop)
    (read : List π → Option (TapeOffset × TapeOffset)) : TapeOffset → List Position → Prop
  | o, [] => o.block = 0
  | o, place :: places => o = ⟨some place.partition, place.block⟩ ∧ place.block ≠ 0 ∧
    ∃ bl back, there place bl ∧ read bl = some (o, back) ∧ Visits there read back places

/-- What lies on the medium. -/
def OnMedium (m : Medium π) (place : Position) (bl : List π) : Prop :=
  SectionAt (m place.partition) place.block bl

/-- What lies on the data partition out of reach of the writers. -/
def Settled (d : Device π) (place : Position) (bl : List π) : Prop :=
  place.partition = .dp ∧ SectionAt (d.medium .dp) place.block bl ∧
    place.block + bl.length < d.appendEnd .dp

def onData (bs : List ℕ) : List Position := bs.map fun b => ⟨.dp, b⟩

section Sections

variable {bl : List π} {there there' : Position → List π → Prop}
  {read : List π → Option (TapeOffset × TapeOffset)}

theorem sectionAt_write (m : Medium π) {p : Part} {pos : ℕ} (hpos : pos ≤ (m p).length)
    (bl : List π) : SectionAt (m.write p pos (framed bl) p) (pos + 1) bl := by
  intro i _
  have hlength : ((m p).take pos).length = pos := by simpa using hpos
  rw [Medium.write_same _ _ _ (by simp [framed]), List.getElem?_append_right (by omega),
    hlength, show pos + 1 + i - pos = i + 1 by omega]
  rfl

theorem Visits.mono {o : TapeOffset} {places : List Position}
    (h : Visits there read o places) (himp : ∀ place bl, there place bl → there' place bl) :
    Visits there' read o places := by
  induction places generalizing o with
  | nil => exact h
  | cons place places ih =>
    obtain ⟨ho, hblock, bl, back, hthere, hread, hrest⟩ := h
    exact ⟨ho, hblock, bl, back, himp _ _ hthere, hread, ih hrest⟩

theorem Visits.written {o : TapeOffset} {places : List Position}
    (h : Visits there read o places) : Visits there read (written o) places := by
  rw [Index.written]
  split_ifs with hblock
  · cases places with
    | nil => rfl
    | cons place places => exact absurd (by rw [← hblock, h.1]) h.2.1
  · exact h

/-- What is out of reach lies before the append position. -/
theorem Visits.below {d : Device π} {o : TapeOffset} {bs : List ℕ}
    (h : Visits (Settled d) read o (onData bs)) : ∀ b ∈ bs, b < d.appendEnd .dp := by
  induction bs generalizing o with
  | nil => simp
  | cons b bs ih =>
    obtain ⟨-, -, bl, back, hsettled, -, hrest⟩ := h
    rintro x (_ | ⟨_, hx⟩)
    · exact (Nat.le_add_right _ _).trans_lt hsettled.2.2
    · exact ih hrest x hx

theorem Settled.grows {d e : Device π} {place : Position} (h : Settled d place bl)
    (hgrows : d.Grows e) : Settled e place bl := by
  obtain ⟨hpart, hsection, hbelow⟩ := h
  refine ⟨hpart, fun i hi => ?_, hbelow.trans_le (hgrows.appendEnd_le .dp)⟩
  rw [hgrows.kept .dp _ (by omega)]
  exact hsection i hi

end Sections

/-! ## One index write -/

/-- The two chains, with the places of the full and of the incremental indexes, the newest
first. -/
structure Linked (R : Reader C) (fulls incs : List ℕ) (v : Volume σ π) : Prop where
  sane : v.device.Sane
  full : Visits (Settled v.device) R.full (advanceBackptr .full v.header).backptr
    (onData fulls)
  inc : Visits (Settled v.device) R.incremental v.header.selfptrInc (onData incs)
  sorted : fulls.Pairwise (· > ·) ∧ incs.Pairwise (· > ·)
  newest : v.header.selfptr.partition = some .ip → v.header.selfptr.block ≠ 0 ∧
    ∃ bl, SectionAt (v.device.medium .ip) v.header.selfptr.block bl ∧
      R.full bl = some (v.header.selfptr, written v.header.backptr)
  fresh : v.header.selfptr.partition = none →
    v.header.selfptr = ⟨none, 0⟩ ∧ fulls = []

/-- Between index writes: data goes behind the last document.  An index partition that
ends in the newest index is left alone. -/
structure Appends (v w : Volume σ π) : Prop where
  header : w.header = v.header
  grows : v.device.Grows w.device
  index : v.header.selfptr.partition = some .ip →
    w.device.medium .ip = v.device.medium .ip

section Steps

variable {R : Reader C} {fulls incs : List ℕ} {v u w : Volume σ π} {p : Part}
  {reason : SyncReason} {volstat : VolStat} {type : IndexType}

theorem Linked.appends (h : Linked R fulls incs v) (hw : Appends v w) :
    Linked R fulls incs w := by
  have hmono : ∀ place bl, Settled v.device place bl → Settled w.device place bl :=
    fun _ _ hsettled => hsettled.grows hw.grows
  refine ⟨hw.grows.sane, ?_, ?_, h.sorted, ?_, ?_⟩
  · rw [hw.header]
    exact h.full.mono hmono
  · rw [hw.header]
    exact h.inc.mono hmono
  · rw [hw.header]
    intro hip
    rw [hw.index hip]
    exact h.newest hip
  · rw [hw.header]
    exact h.fresh

theorem advanceBackptr_backptr (h : Header) : (advanceBackptr .full h).backptr =
    if h.selfptr.partition = some .dp then h.selfptr else h.backptr := by
  unfold advanceBackptr
  split_ifs <;> rfl

theorem nextHeader_full (htype : type ≠ .incremental) (v : Volume σ π) :
    (nextHeader p type v).selfptr = ⟨some p, v.device.appendEnd p + 1⟩ ∧
      (nextHeader p type v).backptr = (advanceBackptr .full v.header).backptr := by
  have hgeneration : (advanceBackptr .full (advanceGeneration v).header).backptr =
      (advanceBackptr .full v.header).backptr := by
    rw [advanceBackptr_backptr, advanceBackptr_backptr, advanceGeneration]
    split_ifs <;> rfl
  cases type with
  | incremental => exact absurd rfl htype
  | full | auto => exact ⟨rfl, hgeneration⟩

theorem nextHeader_incremental (v : Volume σ π) :
    (nextHeader p .incremental v).selfptr = v.header.selfptr ∧
      (nextHeader p .incremental v).backptr = v.header.backptr ∧
      (nextHeader p .incremental v).selfptrInc = ⟨some p, v.device.appendEnd p + 1⟩ ∧
      (nextHeader p .incremental v).backptrInc = v.header.selfptrInc := by
  rw [nextHeader, advanceGeneration]
  split_ifs <;> exact ⟨rfl, rfl, rfl, rfl⟩

/-- A full index on either partition ends the chain of the incremental ones. -/
theorem commit_full_header (hsane : v.device.Sane) (htype : type ≠ .incremental)
    (hok : commit C p reason volstat type v = (.ok (), w)) :
    w.header.selfptr = ⟨some p, v.device.appendEnd p + 1⟩ ∧
      w.header.backptr = (advanceBackptr .full v.header).backptr ∧
      w.header.selfptrInc.block = 0 := by
  obtain ⟨hself, hback⟩ := nextHeader_full (p := p) htype v
  rw [(commit_written C hsane hok).2.1, ← hself, ← hback]
  cases type with
  | incremental => exact absurd rfl htype
  | full | auto => cases p <;> exact ⟨rfl, rfl, rfl⟩

theorem full_nextDocument (hwhole : R.Complete v.tree) (htype : type ≠ .incremental) :
    R.full (nextDocument C p type v) =
      some (⟨some p, v.device.appendEnd p + 1⟩,
        written (advanceBackptr .full v.header).backptr) := by
  obtain ⟨hself, hback⟩ := nextHeader_full (p := p) htype v
  rw [← hself, ← hback]
  cases type with
  | incremental => exact absurd rfl htype
  | full | auto => exact R.full_schema _ _ hwhole

/-- A document that has been written to the data partition is out of reach. -/
theorem settled_written (hsane : v.device.Sane)
    (hok : commit C .dp reason volstat type v = (.ok (), w)) :
    Settled w.device ⟨.dp, v.device.appendEnd .dp + 1⟩ (nextDocument C .dp type v) := by
  obtain ⟨hmedium, -, hend⟩ := commit_written C hsane hok
  refine ⟨rfl, ?_, by rw [hend rfl]; dsimp only; omega⟩
  rw [hmedium]
  exact sectionAt_write _ (Device.appendEnd_le_length hsane .dp) _

theorem Linked.commit_data (h : Linked R fulls incs v) (hwhole : R.Complete v.tree)
    (htype : type ≠ .incremental)
    (hok : commit C .dp reason volstat type v = (.ok (), w)) :
    Linked R ((v.device.appendEnd .dp + 1) :: fulls) [] w := by
  have hgrows := commit_keepsTape C .dp reason type volstat v h.sane
  rw [hok] at hgrows
  obtain ⟨hself, hback, hinc⟩ := commit_full_header h.sane htype hok
  have hsettled := settled_written h.sane hok
  refine ⟨hgrows.sane, ?_, hinc, ⟨?_, .nil⟩, by simp [hself], by simp [hself]⟩
  · rw [advanceBackptr_backptr, if_pos (by rw [hself]), hself]
    exact ⟨rfl, Nat.succ_ne_zero _, _, _, hsettled, full_nextDocument hwhole htype,
      (h.full.mono fun _ _ hold => hold.grows hgrows).written⟩
  · exact .cons (fun b hb => Nat.lt_succ_of_lt (h.full.below b hb)) h.sorted.1

theorem Linked.commit_incremental (h : Linked R fulls incs v) (hwhole : R.Complete v.tree)
    (hok : commit C .dp reason volstat .incremental v = (.ok (), w)) :
    Linked R fulls ((v.device.appendEnd .dp + 1) :: incs) w := by
  have hgrows := commit_keepsTape C .dp reason .incremental volstat v h.sane
  rw [hok] at hgrows
  obtain ⟨hmedium, hheader, -⟩ := commit_written C h.sane hok
  obtain ⟨hself, hback, hinc, hinc'⟩ := nextHeader_incremental (p := .dp) v
  have hheader : w.header = nextHeader .dp .incremental v := hheader
  have hsettled := settled_written h.sane hok
  have hread : R.incremental (nextDocument C .dp .incremental v) =
      some (⟨some .dp, v.device.appendEnd .dp + 1⟩, written v.header.selfptrInc) := by
    rw [← hinc, ← hinc']
    exact R.incremental_incSchema _ _ hwhole
  refine ⟨hgrows.sane, ?_, ?_, ⟨h.sorted.1, ?_⟩, ?_, ?_⟩
  · rw [advanceBackptr_backptr, hheader, hself, hback, ← advanceBackptr_backptr]
    exact h.full.mono fun _ _ hold => hold.grows hgrows
  · rw [hheader, hinc]
    exact ⟨rfl, Nat.succ_ne_zero _, _, _, hsettled, hread,
      (h.inc.mono fun _ _ hold => hold.grows hgrows).written⟩
  · exact .cons (fun b hb => Nat.lt_succ_of_lt (h.inc.below b hb)) h.sorted.2
  · have hother : w.device.medium .ip = v.device.medium .ip := by
      rw [hmedium, Medium.write, if_neg (by simp [framed]), Function.update_of_ne (by decide)]
    rw [hheader, hself, hback, hother]
    exact h.newest
  · rw [hheader, hself]
    exact h.fresh

theorem Linked.commit_index (h : Linked R fulls incs v) (hwhole : R.Complete v.tree)
    (htype : type ≠ .incremental)
    (hok : commit C .ip reason volstat type v = (.ok (), w)) : Linked R fulls [] w := by
  have hgrows := commit_keepsTape C .ip reason type volstat v h.sane
  rw [hok] at hgrows
  obtain ⟨hself, hback, hinc⟩ := commit_full_header h.sane htype hok
  refine ⟨hgrows.sane, ?_, hinc, ⟨h.sorted.1, .nil⟩, ?_, by simp [hself]⟩
  · rw [advanceBackptr_backptr, if_neg (by simp [hself]), hback]
    exact h.full.mono fun _ _ hold => hold.grows hgrows
  · intro _
    refine ⟨by simp [hself], nextDocument C .ip type v, ?_, ?_⟩
    · rw [(commit_written C h.sane hok).1, hself]
      exact sectionAt_write _ (Device.appendEnd_le_length h.sane .ip) _
    · rw [hself, hback]
      exact full_nextDocument hwhole htype

/-- What `ltfs_write_index` leaves alone before it looks for the append position. -/
theorem enter_frame {entry : VolStat × IndexType}
    (h : enter C p reason type v = (.ok entry, u)) :
    u.header = v.header ∧ u.tree = v.tree ∧ u.device.medium = v.device.medium ∧
      (reason ≠ .writePerm → u.device.appendEnd .dp = v.device.appendEnd .dp) := by
  obtain ⟨d, hd, -, hperm⟩ := enter_eq_ok C h
  obtain ⟨hmedium, happend⟩ := lockStatus_frame v.device
  simp only [hd] at hmedium happend
  rcases hperm with ⟨hperm, rfl⟩ | ⟨-, -, rfl⟩
  · exact ⟨rfl, rfl, hmedium, absurd hperm⟩
  · refine ⟨rfl, rfl, hmedium, fun _ => ?_⟩
    simp only [Device.appendEnd, Volume.withDevice, hmedium, happend]

theorem Linked.entered {entry : VolStat × IndexType} (h : Linked R fulls incs v)
    (henter : enter C p reason type v = (.ok entry, u)) : Linked R fulls incs u := by
  have hgrows := enter_keepsTape C p reason type v h.sane
  rw [henter] at hgrows
  obtain ⟨hheader, -, hmedium, -⟩ := enter_frame henter
  exact h.appends ⟨hheader, hgrows, fun _ => by rw [hmedium]⟩

/-- A full index on the data partition, written ahead of one on the index partition. -/
theorem Linked.writeData (h : Linked R fulls incs v) (hwhole : R.Complete v.tree)
    (hreason : reason ≠ .writePerm)
    (hok : writeDataIndex C reason .full v = (.ok (), w)) :
    Linked R ((v.device.appendEnd .dp + 1) :: fulls) [] w := by
  obtain ⟨entry, u, henter, hok⟩ := Outcome.andThen_eq_ok hok
  obtain ⟨-, htree, -, happend⟩ := enter_frame henter
  obtain ⟨-, -, htype, -⟩ := enter_eq_ok C henter
  rw [← happend hreason]
  refine (h.entered henter).commit_data (by rwa [htree]) ?_ hok
  simp [htype, indexTypeOn]

end Steps

/-! ## Any number of index writes -/

/-- The XML writer comes to the end of every document of a call that has reached `u`, and
an index that goes to the data partition first is written too. -/
def Whole (R : Reader C) (p : Part) (reason : SyncReason) (u : Volume σ π) : Prop :=
  if dataFirst p reason u then
    let first := writeDataIndex C reason .full (cacheSuspended C u)
    R.Complete (C.incjClear u.tree) ∧ first.1 = .ok () ∧ R.Complete first.2.tree
  else R.Complete u.tree

/-- A volume without an index, as a format has labelled it. -/
structure Labelled (v : Volume σ π) : Prop where
  sane : v.device.Sane
  selfptr : v.header.selfptr = ⟨none, 0⟩
  backptr : v.header.backptr = ⟨none, 0⟩
  selfptrInc : v.header.selfptrInc = ⟨none, 0⟩

/-- Index writes from `v₀` on, each of them successful, with the blocks of the data
partition to which they have put the full indexes, and the incremental ones since the
last full index, the newest first. -/
inductive IndexWrites (R : Reader C) (v₀ : Volume σ π) :
    List ℕ → List ℕ → Volume σ π → Prop
  | start : IndexWrites R v₀ [] [] v₀
  | between {fulls incs : List ℕ} {v w : Volume σ π}
      (before : IndexWrites R v₀ fulls incs v) (data : Appends v w) :
      IndexWrites R v₀ fulls incs w
  | write {fulls incs : List ℕ} {v u w : Volume σ π} (p : Part) (reason : SyncReason)
      (type : IndexType) (entry : VolStat × IndexType)
      (before : IndexWrites R v₀ fulls incs v)
      (entered : enter C p reason type v = (.ok entry, u)) (whole : Whole R p reason u)
      (written : ltfsWriteIndex C p reason type v = (.ok (), w)) :
      IndexWrites R v₀
        (if entry.2 ≠ .incremental ∧ (p = .dp ∨ dataFirst p reason u) then
          (u.device.appendEnd .dp + 1) :: fulls else fulls)
        (if entry.2 = .incremental then (u.device.appendEnd .dp + 1) :: incs else []) w

section Runs

variable {R : Reader C} {fulls incs : List ℕ} {v₀ v u w : Volume σ π} {p : Part}
  {reason : SyncReason} {type : IndexType} {entry : VolStat × IndexType}

theorem Labelled.linked (h : Labelled v₀) : Linked R [] [] v₀ := by
  refine ⟨h.sane, ?_, congrArg TapeOffset.block h.selfptrInc, ⟨.nil, .nil⟩, ?_,
    fun _ => ⟨h.selfptr, rfl⟩⟩
  · rw [advanceBackptr_backptr, h.selfptr, if_neg (by simp)]
    exact congrArg TapeOffset.block h.backptr
  · simp [h.selfptr]

theorem Linked.write (h : Linked R fulls incs v)
    (hentered : enter C p reason type v = (.ok entry, u)) (hwhole : Whole R p reason u)
    (hok : ltfsWriteIndex C p reason type v = (.ok (), w)) :
    Linked R
      (if entry.2 ≠ .incremental ∧ (p = .dp ∨ dataFirst p reason u) then
        (u.device.appendEnd .dp + 1) :: fulls else fulls)
      (if entry.2 = .incremental then (u.device.appendEnd .dp + 1) :: incs else []) w := by
  have hu := h.entered hentered
  obtain ⟨-, -, htype, -⟩ := enter_eq_ok C hentered
  rw [ltfsWriteIndex, hentered] at hok
  dsimp only [Outcome.andThen] at hok
  rw [Whole] at hwhole
  cases p with
  | dp =>
    rw [if_neg (by simp [dataFirst])] at hok hwhole
    by_cases hinc : entry.2 = .incremental
    · rw [hinc] at hok ⊢
      exact hu.commit_incremental hwhole hok
    · simp only [hinc, ne_eq, not_false_eq_true, true_or, and_self, if_true, if_false]
      exact hu.commit_data hwhole hinc hok
  | ip =>
    have hinc : entry.2 ≠ .incremental := by
      rw [htype]
      exact indexTypeOn_ip_ne C type v
    rw [if_neg hinc]
    by_cases hfirst : dataFirst .ip reason u
    · rw [if_pos hfirst] at hok hwhole
      have hreason : reason ≠ .writePerm := by simp_all [dataFirst]
      rcases hdata : writeDataIndex C reason .full (cacheSuspended C u) with ⟨r, t⟩
      simp only [hdata] at hwhole
      obtain ⟨hcomplete, rfl, hcomplete'⟩ := hwhole
      simp only [writeDataFirst, hdata] at hok
      have hsuspended : Linked R fulls incs (cacheSuspended C u) :=
        hu.appends ⟨rfl, .refl hu.sane, fun _ => rfl⟩
      have ht := hsuspended.writeData hcomplete hreason hdata
      have hback := ht.appends (w := { t with indexCachePathW := u.indexCachePathW })
        ⟨rfl, .refl ht.sane, fun _ => rfl⟩
      rw [if_pos ⟨hinc, .inr hfirst⟩]
      exact hback.commit_index hcomplete' (by decide) hok
    · rw [if_neg hfirst] at hok hwhole
      rw [if_neg (by simp [hfirst])]
      exact hu.commit_index hwhole hinc hok

theorem IndexWrites.linked (hstart : Labelled v₀) (h : IndexWrites R v₀ fulls incs v) :
    Linked R fulls incs v := by
  induction h with
  | start => exact hstart.linked
  | between before data ih => exact ih.appends data
  | write _ _ _ _ before entered whole written ih => exact ih.write entered whole written

theorem Settled.onMedium {d : Device π} {place : Position} {bl : List π}
    (h : Settled d place bl) : OnMedium d.medium place bl := by
  rw [OnMedium, h.1]
  exact h.2.1

/-- From the newest full index, which may be on the index partition, the back pointers
visit the full indexes on the data partition, and from the newest incremental index those
since the last full one. -/
theorem ltfsWriteIndex_backptr_chain (hstart : Labelled v₀)
    (h : IndexWrites R v₀ fulls incs v) :
    Visits (OnMedium v.device.medium) R.full v.header.selfptr
        ((if v.header.selfptr.partition = some .ip then
          [⟨.ip, v.header.selfptr.block⟩] else []) ++ onData fulls) ∧
      fulls.Pairwise (· > ·) ∧
      Visits (OnMedium v.device.medium) R.incremental v.header.selfptrInc (onData incs) ∧
      incs.Pairwise (· > ·) := by
  have hlinked := h.linked hstart
  have hfull := hlinked.full.mono fun _ _ => Settled.onMedium
  have hinc := hlinked.inc.mono fun _ _ => Settled.onMedium
  refine ⟨?_, hlinked.sorted.1, hinc, hlinked.sorted.2⟩
  rw [advanceBackptr_backptr] at hfull
  rcases hpart : v.header.selfptr.partition with _ | _ | _
  · obtain ⟨hself, hnone⟩ := hlinked.fresh hpart
    rw [hself, hnone]
    rfl
  · rw [if_neg (by simp [hpart])] at hfull
    obtain ⟨hblock, bl, hsection, hread⟩ := hlinked.newest hpart
    refine ⟨?_, hblock, bl, _, hsection, hread, hfull.written⟩
    rw [← hpart]
  · rwa [if_pos hpart] at hfull

end Runs

/-! ## Two sequences of two writes -/

/-- Documents are their headers.  The writer gives up on the tree `false`. -/
def headerCatalog : Catalog Bool (Option (Header ⊕ Header)) where
  journalErr _ := false
  journalCount _ := 1
  incjClear t := t
  schema h t := if t then [some (.inl h)] else [none]
  afterSchema _ t := t
  incSchema h t := if t then [some (.inr h)] else [none]
  afterIncSchema _ t := t

def headerReader : Reader headerCatalog where
  full
    | [some (.inl h)] => some (h.selfptr, written h.backptr)
    | _ => none
  incremental
    | [some (.inr h)] => some (h.selfptrInc, written h.backptrInc)
    | _ => none
  Complete t := t = true
  full_schema := by rintro h t rfl; rfl
  incremental_incSchema := by rintro h t rfl; rfl

/-- A labelled tape on a drive that carries out everything. -/
def labelled : Volume Bool (Option (Header ⊕ Header)) :=
  { mounted true fun _ => List.replicate 4 .filemark with
    header := ⟨0, ⟨0, 0⟩, ⟨none, 0⟩, ⟨none, 0⟩, ⟨none, 0⟩, ⟨none, 0⟩⟩
    ipIndexFileEnd := false
    dpIndexFileEnd := false }

/-- A full index on the data partition, and a change since. -/
def oneWritten (tree : Bool) : Volume Bool (Option (Header ⊕ Header)) :=
  { (ltfsWriteIndex headerCatalog .dp .format .full labelled).2 with
    tree := tree
    dirty := true }

/-- An index behind it. -/
def twoWritten (type : IndexType) (tree : Bool) : Volume Bool (Option (Header ⊕ Header)) :=
  (ltfsWriteIndex headerCatalog .dp .ea type (oneWritten tree)).2

theorem labelled_labelled : Labelled labelled := ⟨mounted_sane true _, rfl, rfl, rfl⟩

theorem oneWritten_written (tree : Bool) :
    IndexWrites headerReader labelled [5] [] (oneWritten tree) := by
  have hfirst : IndexWrites headerReader labelled [5] []
      (ltfsWriteIndex headerCatalog .dp .format .full labelled).2 :=
    IndexWrites.start.write .dp .format .full (.unlocked, .full) (Prod.ext rfl rfl)
      (Eq.refl true) (Prod.ext rfl rfl)
  exact hfirst.between ⟨rfl, .refl (hfirst.linked labelled_labelled).sane, fun _ => rfl⟩

/-- A full and an incremental index. -/
theorem ltfsWriteIndex_backptr_chain_two :
    IndexWrites headerReader labelled [5] [8] (twoWritten .incremental true) ∧
      Visits (OnMedium (twoWritten .incremental true).device.medium) headerReader.full
        (twoWritten .incremental true).header.selfptr [⟨.dp, 5⟩] := by
  have hrun : IndexWrites headerReader labelled [5] [8] (twoWritten .incremental true) :=
    (oneWritten_written true).write .dp .ea .incremental (.unlocked, .incremental)
      (Prod.ext rfl rfl) (Eq.refl true) (Prod.ext rfl rfl)
  exact ⟨hrun, (ltfsWriteIndex_backptr_chain labelled_labelled hrun).1⟩

/-- The second full index is cut off by its writer, and the call succeeds: no index is
found where the self pointer leads, so not even the first one is visited. -/
theorem ltfsWriteIndex_backptr_chain_cut :
    IndexWrites headerReader labelled [5] [] (oneWritten false) ∧
      (ltfsWriteIndex headerCatalog .dp .ea .full (oneWritten false)).1 = .ok () ∧
      ∀ places, ¬Visits (OnMedium (twoWritten .full false).device.medium)
        headerReader.full (twoWritten .full false).header.selfptr places := by
  refine ⟨oneWritten_written false, rfl, fun places hvisits => ?_⟩
  have hself : (twoWritten .full false).header.selfptr = ⟨some .dp, 8⟩ := rfl
  rw [hself] at hvisits
  rcases places with _ | ⟨place, places⟩
  · cases hvisits
  · obtain ⟨hplace, -, bl, back, hsection, hread, -⟩ := hvisits
    obtain ⟨part, block⟩ := place
    cases hplace
    have hcut := hsection 0 (Nat.zero_le _)
    rcases bl with _ | ⟨b, bl⟩
    · cases hcut
    · cases hcut
      cases hread

end AuroraLtfs.Index
