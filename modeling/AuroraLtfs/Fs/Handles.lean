import AuroraLtfs.Fs.PathOps
import AuroraLtfs.Fs.Session

/-!
# References are given back

An operation by path leaves the reference counts of all dentries as they were,
but for the reference the tree held to a dentry it unlinks.  The exceptions are
known: each operation has a list of the references it will forget, which can be
read off the state before the call.
-/

namespace AuroraLtfs.Fs

variable {base : ℕ → ℕ} {refs leaks : List ℕ} {s t u : LtfsIndex} {env : Env}

/-! ## Conservation -/

/-- Only the tree lets go of dentries, and dentries are freed only after it has. -/
structure Sheds (s t : LtfsIndex) : Prop where
  deleted : ∀ d, (s.dentry d).deleted = true → (t.dentry d).deleted = true
  freed : ∀ d, (s.dentry d).freed = false → (t.dentry d).freed = true →
    (t.dentry d).deleted = true

namespace Sheds

theorem trans (hst : Sheds s t) (htu : Sheds t u) : Sheds s u where
  deleted := fun d hd => htu.deleted d (hst.deleted d hd)
  freed := fun d hs hu => by
    cases ht : (t.dentry d).freed with
    | false => exact htu.freed d ht hu
    | true => exact htu.deleted d (hst.freed d hs ht)

theorem of_sameTree (h : SameTree s t) : Sheds s t where
  deleted := fun d hd => (h.deleted d).trans hd
  freed := fun d hs ht => by
    cases h.freed d with
    | inl hsame =>
      rw [hsame, hs] at ht
      cases ht
    | inr hdeleted => exact (h.deleted d).trans hdeleted

theorem of_frame (h : Frame s t) : Sheds s t := of_sameTree h.sameTree

theorem detached {p d : ℕ} {n : Name} (hs : Tree s)
    (hmem : (n, d) ∈ (s.dentry p).childList) : Sheds s (detached p d s) := by
  have hdp := hs.entry_ne hmem
  have hself : ((Fs.detached p d s).dentry d).deleted = true :=
    detached_self Dentry.deleted (fun _ _ => rfl) hdp
  refine ⟨fun x hx => ?_, fun x hx hfreed => ?_⟩
  · by_cases hxd : x = d
    · rw [hxd]
      exact hself
    · rw [detached_of_ne Dentry.deleted (fun _ _ => rfl) (fun _ _ => rfl) hxd]
      exact hx
  · by_cases hxd : x = d
    · rw [hxd]
      exact hself
    · rw [detached_of_ne Dentry.freed (fun _ _ => rfl) (fun _ _ => rfl) hxd, hx] at hfreed
      cases hfreed

end Sheds

/-- The references of all dentries are as they were: a dentry that stays keeps its
count, one that is unlinked loses the reference of the tree, and a dentry is freed
exactly when no reference to it is left. -/
structure Conserves (s t : LtfsIndex) : Prop where
  numhandles : ∀ d, (s.dentry d).freed = false → (t.dentry d).freed = false →
    (t.dentry d).numhandles = (s.dentry d).numhandles -
      if (s.dentry d).deleted = false ∧ (t.dentry d).deleted = true then 1 else 0
  freed : ∀ d, (s.dentry d).freed = false → (t.dentry d).freed = true →
    (s.dentry d).deleted = false ∧ (t.dentry d).deleted = true ∧
      (s.dentry d).numhandles = 1
  referenced : ∀ d, (t.dentry d).freed = false → (t.dentry d).numhandles = 0 →
    (t.dentry d).outOfSync = true

/-- Every structure in memory is referred to. -/
def Referenced (s : LtfsIndex) : Prop :=
  ∀ d, (s.dentry d).freed = false → 0 < (s.dentry d).numhandles

/-- What is left of `s` in `t`, with the references in `leaks` forgotten. -/
structure Spends (base : ℕ → ℕ) (leaks : List ℕ) (s t : LtfsIndex) : Prop where
  counted : Counted (fun d => base d + leaks.count d) [] t
  sheds : Sheds s t
  leaked : ∀ d ∈ leaks, (s.dentry d).freed = false

theorem Spends.conserves_iff (h : Spends base leaks s t) (hc : Counted base [] s)
    (href : Referenced s) : Conserves s t ↔ leaks = [] := by
  constructor
  · intro hcons
    by_contra hne
    obtain ⟨x, hx⟩ := List.exists_mem_of_ne_nil leaks hne
    have hlive := h.leaked x hx
    have hpos := List.count_pos_iff.2 hx
    have hlive' := h.counted.kept x (show 0 < base x + leaks.count x by omega)
    have hcount := hc.count x hlive
    have hcount' := h.counted.count x hlive'
    have hkept := hcons.numhandles x hlive hlive'
    have hmono := h.sheds.deleted x
    rw [Dentry.tree] at hcount hcount'
    push_cast at hcount'
    cases hsx : (s.dentry x).deleted with
    | true =>
      simp [hsx, hmono hsx] at hcount hcount' hkept
      omega
    | false =>
      cases htx : (t.dentry x).deleted <;>
        · simp [hsx, htx] at hcount hcount' hkept
          omega
  · rintro rfl
    have hcounted : Counted base [] t := h.counted
    refine ⟨fun d hs ht => ?_, fun d hs ht => ?_, hcounted.idle⟩
    · have hcount := hc.count d hs
      have hcount' := hcounted.count d ht
      have hmono := h.sheds.deleted d
      rw [Dentry.tree] at hcount hcount'
      cases hsd : (s.dentry d).deleted <;> cases htd : (t.dentry d).deleted <;>
        simp_all
    · have hgone := h.sheds.freed d hs ht
      have hbase := hcounted.base_eq_zero ht
      have hcount := hc.count d hs
      have hpos := href d hs
      rw [Dentry.tree, hbase] at hcount
      cases hsd : (s.dentry d).deleted with
      | true => simp_all
      | false => simp_all

/-- The references others hold. -/
theorem Referenced.counted (href : Referenced s) : ∃ base, Counted base [] s := by
  refine ⟨fun d => if (s.dentry d).freed then 0 else
    ((s.dentry d).numhandles - (s.dentry d).tree).toNat, ?_, ?_, ?_, ?_⟩
  · intro d hd
    have hpos := href d hd
    have htree : (s.dentry d).tree ≤ 1 := by
      rw [Dentry.tree]
      split <;> omega
    simp only [hd, List.count_nil]
    rw [if_neg Bool.false_ne_true]
    omega
  · intro d hd
    cases hd
  · intro d hd
    by_contra hfreed
    rw [Bool.not_eq_false] at hfreed
    simp only [hfreed, if_true] at hd
    exact lt_irrefl 0 hd
  · intro d hd hzero
    exact absurd hzero (href d hd).ne'

theorem Spends.of_frame (h : Frame s t) (hc : Counted base [] t) : Spends base [] s t :=
  ⟨hc, Sheds.of_frame h, fun _ hd => nomatch hd⟩

theorem Spends.of_sameTree (h : SameTree s t) (hc : Counted base [] t) :
    Spends base [] s t :=
  ⟨hc, Sheds.of_sameTree h, fun _ hd => nomatch hd⟩

/-- References that are forgotten stay with their dentries. -/
theorem Counted.leakAll (h : Counted base (leaks ++ refs) s) :
    Counted (fun d => base d + leaks.count d) refs s where
  count := fun d hd => by
    rw [h.count d hd, List.count_append]
    push_cast
    ring
  live := fun d hd => h.live d (List.mem_append_right leaks hd)
  kept := fun d hd => by
    by_cases hmem : d ∈ leaks
    · exact h.live d (List.mem_append_left refs hmem)
    · rw [List.count_eq_zero_of_not_mem hmem, add_zero] at hd
      exact h.kept d hd
  idle := h.idle

theorem bump_eq (base : ℕ → ℕ) (x : ℕ) : bump base x = fun d => base d + [x].count d := by
  funext d
  by_cases hd : d = x
  · rw [hd, bump_self, List.count_singleton_self]
  · rw [bump_of_ne hd, List.count_eq_zero_of_not_mem (by simpa using hd), add_zero]

/-- Forgotten references to dentries of the tree. -/
theorem Spends.leak (h : Frame s t) (hc : Counted base leaks t)
    (hlive : ∀ d ∈ leaks, (s.dentry d).freed = false) : Spends base leaks s t where
  counted := Counted.leakAll (by rw [List.append_nil]; exact hc)
  sheds := Sheds.of_frame h
  leaked := hlive

theorem Spends.after {s₁ : LtfsIndex} (h : Spends base leaks s₁ t) (hframe : Frame s s₁)
    (hlive : ∀ d ∈ leaks, (s.dentry d).freed = false) : Spends base leaks s t where
  counted := h.counted
  sheds := (Sheds.of_frame hframe).trans h.sheds
  leaked := hlive

/-! ## Unlink and rename -/

theorem UnlinkOutcome.spends {r : Outcome FsError LtfsIndex Unit} (hs : Tree s)
    (h : UnlinkOutcome base [] s r) : Spends base [] s r.2 := by
  refine ⟨?_, ?_, fun _ hd => nomatch hd⟩
  · cases h with
    | unchanged r u _ hc => exact hc
    | removed p d n s₁ u _ _ _ _ _ hc => exact hc
  · cases h with
    | unchanged r u hu _ => exact .of_frame hu
    | removed p d n s₁ u hs₁ hmem _ htree _ _ =>
      exact (Sheds.of_frame hs₁).trans
        ((Sheds.detached (hs.frame hs₁) hmem).trans (.of_sameTree htree))

section Rename

variable {fromdir todir f : ℕ} {fromName toName : Name} {mem : Memory}

theorem renameLeak_attached {x : ℕ}
    (h : renameLeak fromdir todir fromName toName mem s = some x) : Attached s x := by
  unfold renameLeak at h
  split at h
  · cases h
  split at h
  · cases h
  split at h
  · cases h
  next f hfind =>
    dsimp only at h
    split at h
    · cases h
    split at h
    · exact Tree.attached_entry h
    split at h
    · cases h
    split at h
    · exact Tree.attached_entry h
    split at h
    · obtain rfl := Option.some.inj h
      exact Tree.attached_entry hfind
    · cases h

theorem Replaced.sheds (h : Replaced s todir f toName t) (hs : Tree s) : Sheds s t := by
  cases h with
  | nothing t ht => exact .of_frame ht
  | target x t hx _ _ htree _ => exact (Sheds.detached hs hx).trans (.of_sameTree htree)

theorem Sheds.stranded {x : ℕ} (hs : Tree s)
    (hx : (toName, x) ∈ (s.dentry todir).childList) : Sheds s (stranded todir x s) where
  deleted := fun y hy => by
    rw [stranded_field Dentry.deleted (fun _ _ => rfl) (hs.entry_ne hx)]
    exact (Sheds.detached hs hx).deleted y hy
  freed := fun y hy hfreed => by
    rw [stranded_field Dentry.freed (fun _ _ => rfl) (hs.entry_ne hx)] at hfreed
    rw [stranded_field Dentry.deleted (fun _ _ => rfl) (hs.entry_ne hx)]
    exact (Sheds.detached hs hx).freed y hy hfreed

theorem Sheds.relocated (hf : f ≠ fromdir) :
    Sheds s (relocated fromdir todir f toName mem s) where
  deleted := fun x hx => by
    rw [relocated_field Dentry.deleted s hf (fun _ _ => rfl) (fun _ _ _ => rfl)
      (fun _ _ => rfl) fun _ _ _ => rfl]
    exact hx
  freed := fun x hx hfreed => by
    rw [relocated_field Dentry.freed s hf (fun _ _ => rfl) (fun _ _ _ => rfl)
      (fun _ _ => rfl) fun _ _ _ => rfl, hx] at hfreed
    cases hfreed

theorem RenameOutcome.spends {r : Outcome FsError LtfsIndex Unit} (hs : Tree s)
    (h : RenameOutcome base [] s fromdir todir fromName toName mem r) :
    Spends base (renameLeak fromdir todir fromName toName mem s).toList s r.2 := by
  cases h with
  | unchanged e u hu hc hleak =>
    rw [hleak]
    exact .of_frame hu hc
  | leaked x e u hu hc hleak =>
    have hx := hs.attached_freed (renameLeak_attached hleak)
    rw [hleak]
    rw [bump_eq] at hc
    refine ⟨hc, Sheds.of_frame hu, fun d hd => ?_⟩
    obtain rfl := List.mem_singleton.1 hd
    exact hx
  | stranded x s₁ u hs₁ _ hx htree hleak hc =>
    have hmem := Dentry.mem_of_findKey hx
    have hmem₁ : (toName, x) ∈ (s₁.dentry todir).childList := by
      rw [hs₁.childList]
      exact hmem
    rw [hleak]
    rw [bump_eq] at hc
    refine ⟨hc, (Sheds.of_frame hs₁).trans
      ((Sheds.stranded (hs.frame hs₁) hmem₁).trans (.of_sameTree htree)), fun d hd => ?_⟩
    obtain rfl := List.mem_singleton.1 hd
    exact hs.entry_freed hmem
  | stuck f s₁ v u hs₁ _ hrep hu hleak hc =>
    rw [hleak]
    exact ⟨hc, (Sheds.of_frame hs₁).trans
      ((hrep.sheds (hs.frame hs₁)).trans (.of_frame hu)), fun _ hd => nomatch hd⟩
  | moved f s₁ v u r hs₁ hfind hrep hmoves _ htree _ hleak hc =>
    obtain ⟨n, hmem⟩ := hmoves.entry
    have hne := hmoves.tree.entry_ne hmem
    have hsheds : Sheds s u := (Sheds.of_frame hs₁).trans
      ((hrep.sheds (hs.frame hs₁)).trans
        ((Sheds.relocated hne).trans (.of_sameTree htree)))
    rw [hleak]
    cases hfailed : mem.failed with
    | false =>
      rw [hfailed] at hc
      exact ⟨hc, hsheds, fun _ hd => nomatch hd⟩
    | true =>
      rw [hfailed, if_pos rfl, bump_eq] at hc
      refine ⟨hc, hsheds, fun d hd => ?_⟩
      obtain rfl := List.mem_singleton.1 hd
      exact hs.entry_freed (Dentry.mem_of_findKey hfind)

theorem ltfsFsopsRename_spends (env : Env) (source target : Except FsError Path)
    (mem : Memory) (hs : Tree s) (hc : Counted base [] s) :
    Spends base (ltfsFsopsRenameLeak env source target mem s).toList s
      (ltfsFsopsRename env source target mem s).2 := by
  rcases ltfsFsopsRename_spec env source target mem hs hc with
    ⟨ht, hct, hnone⟩ | ⟨from_, to_, fromdir, todir, _, _, _, hleak, s₁, hs₁, hout⟩
  · rw [hnone]
    exact .of_frame ht hct
  · have hspends := hout.spends (hs.frame hs₁)
    rw [renameLeak_frame hs₁] at hspends
    rw [hleak]
    refine hspends.after hs₁ fun d hd => ?_
    exact hs.attached_freed (renameLeak_attached (Option.mem_toList.1 hd))

end Rename

/-! ## Calls between an open and a close -/

/-- The dentry that an open for reading returns. -/
def opened (env : Env) (path : Except FsError Path) (s : LtfsIndex) : Option ℕ :=
  match env.admitOpen path false with
  | .error _ => none
  | .ok norm => resolve env.keys s norm root

inductive OpensRead (env : Env) (base : ℕ → ℕ) (refs : List ℕ)
    (path : Except FsError Path) (s : LtfsIndex) : Outcome FsError LtfsIndex ℕ → Prop
  | failed (e : FsError) (t : LtfsIndex) : opened env path s = none → Frame s t →
      Counted base refs t → OpensRead env base refs path s (.error e, t)
  | found (d : ℕ) (t : LtfsIndex) : opened env path s = some d →
      env.iosched = true → Attached s d → Frame s t → Counted base (d :: refs) t →
      OpensRead env base refs path s (.ok d, t)

theorem ltfsFsopsOpen_read (env : Env) (path : Except FsError Path) (useIosched : Bool)
    (sched : SchedReply) (hs : Tree s) (hc : Counted base refs s) :
    OpensRead env base refs path s
      (ltfsFsopsOpen env path false useIosched sched s) := by
  rw [ltfsFsopsOpen]
  cases hadm : env.admitOpen path false with
  | error e => exact .failed e s (by rw [opened, hadm]) (Frame.refl s) hc
  | ok norm =>
    have hopened : opened env path s = resolve env.keys s norm root := by
      rw [opened, hadm]
    have hwalk := fsPathLookup_spec env.keys false norm hs hc
    dsimp only
    generalize fsPathLookup env.keys false norm s = r at hwalk ⊢
    cases hwalk with
    | failed e u hnone hu hcu => exact .failed e u (hopened.trans hnone) hu hcu
    | kept _ _ _ hkeep => cases hkeep
    | found d u hres hd hu _ hcu =>
      exact .found d u (hopened.trans hres) (Env.admitOpen_iosched hadm) hd hu hcu

/-- Closing what has been opened. -/
theorem close_spends {d : ℕ} (useIosched : Bool) {s₁ : LtfsIndex} (hs : Tree s)
    (hio : env.iosched = true) (hframe : Frame s s₁) (hsame : SameTree s₁ t)
    (hc : Counted base [d] t) :
    Spends base [] s (ltfsFsopsClose env d false false useIosched {} t).2 := by
  have htree := hframe.sameTree.trans hsame
  have hclose := (ltfsFsopsClose_spec (hs.same htree) hc
    (rfl : ltfsFsopsClose env d false false useIosched {} t = _)).1
  rw [hio, if_pos rfl] at hclose
  exact .of_sameTree (htree.trans hclose.tree) hclose.counted

theorem ltfsFsopsGetattr_state (env : Env) (d : ℕ) (s : LtfsIndex) :
    (ltfsFsopsGetattr env d s).2 = s := by
  unfold ltfsFsopsGetattr
  split <;> rfl

theorem ltfsFsopsGetattrPath_spends (env : Env) (path : Except FsError Path)
    (hs : Tree s) (hc : Counted base [] s) :
    Spends base [] s (ltfsFsopsGetattrPath env path s).2 := by
  rw [ltfsFsopsGetattrPath]
  have hopen := ltfsFsopsOpen_read env path false {} hs hc
  generalize ltfsFsopsOpen env path false false {} s = r at hopen ⊢
  cases hopen with
  | failed e t _ ht hct => exact .of_frame ht hct
  | found d t _ hio _ ht hct =>
    dsimp only
    rw [ltfsFsopsGetattr_state]
    exact close_spends false hs hio ht (SameTree.refl t) hct

theorem ltfsFsopsUtimensPath_spends (env : Env) (path : Except FsError Path)
    (hs : Tree s) (hc : Counted base [] s) :
    Spends base [] s (ltfsFsopsUtimensPath env path s).2 := by
  rw [ltfsFsopsUtimensPath]
  have hopen := ltfsFsopsOpen_read env path false {} hs hc
  generalize ltfsFsopsOpen env path false false {} s = r at hopen ⊢
  cases hopen with
  | failed e t _ ht hct => exact .of_frame ht hct
  | found d t _ hio _ ht hct => exact close_spends false hs hio ht (SameTree.refl t) hct

theorem ltfsFsopsSetReadonly_spec (env : Env) (d : ℕ) (readonly : Bool)
    (hc : Counted base refs s) :
    SameTree s (ltfsFsopsSetReadonly env d readonly s).2 ∧
      Counted base refs (ltfsFsopsSetReadonly env d readonly s).2 := by
  rw [ltfsFsopsSetReadonly]
  split
  · exact ⟨SameTree.refl s, hc⟩
  · exact ⟨SameTree.modify rfl rfl, hc.modify rfl rfl rfl rfl⟩

theorem ltfsFsopsSetReadonlyPath_spends (env : Env) (path : Except FsError Path)
    (readonly : Bool) (hs : Tree s) (hc : Counted base [] s) :
    Spends base ((opened env path s).filter fun d => (s.dentry d).isWorm).toList s
      (ltfsFsopsSetReadonlyPath env path readonly s).2 := by
  rw [ltfsFsopsSetReadonlyPath]
  have hopen := ltfsFsopsOpen_read env path false {} hs hc
  generalize ltfsFsopsOpen env path false false {} s = r at hopen ⊢
  cases hopen with
  | failed e t hnone ht hct =>
    rw [hnone]
    exact .of_frame ht hct
  | found d t hsome hio hd ht hct =>
    dsimp only
    rw [hsome, ht.isWorm, Option.filter_some]
    cases hworm : (s.dentry d).isWorm with
    | true =>
      refine .leak ht hct fun x hx => ?_
      obtain rfl := List.mem_singleton.1 hx
      exact hs.attached_freed hd
    | false =>
      obtain ⟨hsame, hcount⟩ := ltfsFsopsSetReadonly_spec env d readonly hct
      exact close_spends false hs hio ht hsame hcount

def LinkBuffer.short (buf : LinkBuffer) (target : List UInt8) : Bool :=
  buf.tooSmall target || buf.tooSmallLive target

theorem ltfsFsopsReadlinkPath_spends (env : Env) (path : Except FsError Path)
    (buf : LinkBuffer) (hs : Tree s) (hc : Counted base [] s) :
    Spends base ((opened env path s).filter fun d => buf.short (s.dentry d).target).toList
      s (ltfsFsopsReadlinkPath env path buf s).2 := by
  rw [ltfsFsopsReadlinkPath]
  have hopen := ltfsFsopsOpen_read env path true {} hs hc
  split
  · revert hopen
    generalize ltfsFsopsOpen env path false true {} s = r
    intro hopen
    cases hopen with
    | failed e t hnone ht hct =>
      rw [hnone]
      exact .of_frame ht hct
    | found d t hsome hio hd ht hct =>
      have htarget : (t.dentry d).target = (s.dentry d).target :=
        ht.field Dentry.target (fun _ => rfl) d
      dsimp only
      rw [hsome, htarget, Option.filter_some, LinkBuffer.short]
      have hleak : Spends base [d] s t := .leak ht hct fun x hx => by
        obtain rfl := List.mem_singleton.1 hx
        exact hs.attached_freed hd
      cases hsmall : buf.tooSmall (s.dentry d).target with
      | true => exact hleak
      | false =>
        cases hlive : buf.tooSmallLive (s.dentry d).target with
        | true => exact hleak
        | false =>
          have hclose := close_spends true hs hio ht (SameTree.refl t) hct
          generalize ltfsFsopsClose env d false false true {} t = c at hclose ⊢
          obtain ⟨ret, u⟩ := c
          cases ret with
          | error e => exact hclose
          | ok _ => exact hclose
  · next hio =>
    have hnone : opened env path s = none := by
      cases hopen' : opened env path s with
      | none => rfl
      | some d =>
        rw [opened] at hopen'
        cases hadm : env.admitOpen path false with
        | error e => rw [hadm] at hopen'; cases hopen'
        | ok norm => exact absurd (Env.admitOpen_iosched hadm) hio
    rw [hnone]
    exact .of_frame (Frame.refl s) hc

/-! ## Extended attributes -/

/-- Dumping the journal forgets a reference to every directory it walks to. -/
theorem fsPathClean_foldl_spec (walks : List (Keys × Path)) (hs : Tree s)
    (hc : Counted base refs s) :
    Frame s (walks.foldl (fun s walk => fsPathClean walk.1 walk.2 s) s) ∧
      Counted base (walks.filterMap (fun walk => resolve walk.1 s walk.2 root) ++ refs)
        (walks.foldl (fun s walk => fsPathClean walk.1 walk.2 s) s) := by
  induction walks generalizing s refs with
  | nil => exact ⟨Frame.refl s, hc⟩
  | cons walk rest ih =>
    have hwalk := fsPathLookup_spec walk.1 false walk.2 hs hc
    have hclean : fsPathClean walk.1 walk.2 s = (fsPathLookup walk.1 false walk.2 s).2 :=
      rfl
    rw [List.foldl_cons, hclean]
    generalize fsPathLookup walk.1 false walk.2 s = r at hwalk ⊢
    cases hwalk with
    | failed e u hnone hu hcu =>
      obtain ⟨hframe, hcount⟩ := ih (hs.frame hu) hcu
      simp only [resolve_frame hu] at hcount
      simp only [List.filterMap_cons, hnone]
      exact ⟨hu.trans hframe, hcount⟩
    | kept _ _ _ hkeep => cases hkeep
    | found d u hres _ hu _ hcu =>
      obtain ⟨hframe, hcount⟩ := ih (hs.frame hu) hcu
      simp only [resolve_frame hu] at hcount
      simp only [List.filterMap_cons, hres]
      exact ⟨hu.trans hframe, hcount.perm List.perm_middle⟩

inductive Looked (base : ℕ → ℕ) (refs : List ℕ) (keys : Keys) (path : Path)
    (call : ℕ → LtfsIndex → LtfsIndex) (s : LtfsIndex) :
    Outcome FsError LtfsIndex ℕ → Prop
  | failed (e : FsError) (t : LtfsIndex) : resolve keys s path root = none →
      Frame s t → Counted base refs t → Looked base refs keys path call s (.error e, t)
  | found (d : ℕ) (t : LtfsIndex) : resolve keys s path root = some d → Frame s t →
      Counted base (d :: refs) t →
      Looked base refs keys path call s (.ok d, fsReleaseDentry d (call d t))

theorem withDentry_spec (keys : Keys) (path : Path) (call : ℕ → LtfsIndex → LtfsIndex)
    (hs : Tree s) (hc : Counted base refs s) :
    Looked base refs keys path call s (withDentry keys path call s) := by
  rw [withDentry]
  have hwalk := fsPathLookup_spec keys false path hs hc
  generalize fsPathLookup keys false path s = r at hwalk ⊢
  cases hwalk with
  | failed e u hnone hu hcu => exact .failed e u hnone hu hcu
  | kept _ _ _ hkeep => cases hkeep
  | found d u hres _ hu _ hcu => exact .found d u hres hu hcu

/-- The tree is the same and no reference is missing. -/
structure Keeps (base : ℕ → ℕ) (refs : List ℕ) (s t : LtfsIndex) : Prop where
  tree : SameTree s t
  counted : Counted base refs t

theorem Keeps.spends (h : Keeps base [] s t) : Spends base [] s t :=
  .of_sameTree h.tree h.counted

theorem xattrRound_keeps (path : Path) (reply : XattrReply)
    {call : ℕ → LtfsIndex → LtfsIndex} (hs : Tree s) (hc : Counted base [] s)
    (hcall : ∀ d u, resolve reply.keys s path root = some d → Counted base [d] u →
      Keeps base [d] u (call d u)) :
    Keeps base [] s (xattrRound path reply call s).2 ∧
      ∀ d, (xattrRound path reply call s).1 = .ok d →
        resolve reply.keys s path root = some d := by
  rw [xattrRound]
  cases reply.lock with
  | some e => exact ⟨⟨SameTree.refl s, hc⟩, fun _ h => nomatch h⟩
  | none =>
    have hlook := withDentry_spec reply.keys path call hs hc
    dsimp only
    generalize withDentry reply.keys path call s = r at hlook ⊢
    cases hlook with
    | failed e t _ ht hct => exact ⟨⟨ht.sameTree, hct⟩, fun _ h => nomatch h⟩
    | found d t hres ht hct =>
      have hkeeps := hcall d t hres hct
      have htree := ht.sameTree.trans hkeeps.tree
      have hrel := fsReleaseDentry_spec (hs.same htree).gone hkeeps.counted
      have hall : Keeps base [] s (fsReleaseDentry d (call d t)) :=
        ⟨htree.trans hrel.frame.sameTree, hrel.counted⟩
      cases reply.ret with
      | some e => exact ⟨hall, fun _ h => nomatch h⟩
      | none => exact ⟨hall, fun x h => Except.ok.inj h ▸ hres⟩

theorem changeXattr_keeps (name : XattrName) (reply : XattrReply) (d : ℕ)
    (hc : Counted base refs s) : Keeps base refs s (changeXattr name reply d s) := by
  rw [changeXattr]
  cases reply.ret with
  | some e => exact ⟨SameTree.refl s, hc⟩
  | none =>
    cases name with
    | immutable => exact ⟨SameTree.modify rfl rfl, hc.modify rfl rfl rfl rfl⟩
    | appendonly => exact ⟨SameTree.modify rfl rfl, hc.modify rfl rfl rfl rfl⟩
    | dumpincj => exact ⟨SameTree.modify rfl rfl, hc.modify rfl rfl rfl rfl⟩
    | named name => exact ⟨SameTree.modify rfl rfl, hc.modify rfl rfl rfl rfl⟩

theorem Keeps.trans {refs' : List ℕ} (hst : Keeps base refs s t)
    (htu : Keeps base refs' t u) : Keeps base refs' s u :=
  ⟨hst.tree.trans htu.tree, htu.counted⟩

theorem setxattrRounds_keeps (path : Path) (name : XattrName) (last : XattrReply)
    (again : List XattrRound) (hs : Tree s) (hc : Counted base [] s) :
    Keeps base [] s (setxattrRounds path name last again s).2 := by
  induction again generalizing s with
  | nil =>
    exact (xattrRound_keeps path last hs hc fun d u _ hcu =>
      changeXattr_keeps name last d hcu).1
  | cons round again ih =>
    have hround := (xattrRound_keeps path { round with } hs hc fun d u _ hcu =>
      (⟨SameTree.refl u, hcu⟩ : Keeps base [d] u ((fun _ s => s) d u))).1
    rw [setxattrRounds]
    generalize xattrRound path { round with } (fun _ s => s) s = r at hround ⊢
    obtain ⟨ret, t⟩ := r
    cases ret with
    | error e => exact hround
    | ok d => exact hround.trans (ih (hs.same hround.tree) hround.counted)

theorem resolve_ne_root {keys : Keys} {path : List Name} {d x : ℕ} (hs : Tree s)
    (hpath : path ≠ []) (h : resolve keys s path d = some x) : x ≠ root := by
  induction path generalizing d with
  | nil => exact absurd rfl hpath
  | cons name rest ih =>
    rw [resolve] at h
    split at h
    · cases h
    · obtain ⟨c, hfind, hrest⟩ := Option.bind_eq_some_iff.1 h
      cases rest with
      | nil =>
        obtain rfl := Option.some.inj hrest
        exact hs.entry_ne_root (Dentry.mem_of_findCopied hfind)
      | cons => exact ih (by simp) hrest

/-- Reading an attribute keeps everything unless it dumps the journal. -/
theorem getxattrRounds_keeps (path : Path) (name : XattrName) (journal : List JEntry)
    (last : XattrReply) (again : List XattrRound) (hs : Tree s)
    (hc : Counted base [] s) (hdump : ¬ (name = .dumpincj ∧ path = [])) :
    Keeps base [] s (getxattrRounds path name journal last again s).2 := by
  have hother {keys : Keys} {v : LtfsIndex} (hv : Tree v) {d : ℕ}
      (hd : resolve keys v path root = some d) : ¬ (name = .dumpincj ∧ d = root) := by
    rintro ⟨hname, rfl⟩
    exact resolve_ne_root hv (fun hpath => hdump ⟨hname, hpath⟩) hd rfl
  have hget {keys : Keys} {v : LtfsIndex} (hv : Tree v) (d : ℕ) (u : LtfsIndex)
      (hd : resolve keys v path root = some d) (hcu : Counted base [d] u) :
      Keeps base [d] u (xattrGet name journal d u) := by
    rw [xattrGet, if_neg (hother hv hd)]
    exact ⟨SameTree.refl u, hcu⟩
  induction again generalizing s with
  | nil => exact (xattrRound_keeps path last hs hc (hget hs)).1
  | cons round again ih =>
    obtain ⟨hround, hres⟩ := xattrRound_keeps path { round with } hs hc (hget hs)
    rw [getxattrRounds]
    generalize xattrRound path { round with } (xattrGet name journal) s = r at hround hres ⊢
    obtain ⟨ret, t⟩ := r
    cases ret with
    | error e => exact hround
    | ok d =>
      dsimp only
      rw [if_neg (hother hs (hres d rfl))]
      exact hround.trans (ih (hs.same hround.tree) hround.counted)

/-- The references that dumping the journal forgets. -/
def dumpLeaks (journal : List JEntry) (s : LtfsIndex) : List ℕ :=
  (incjParents none journal).filterMap fun walk => resolve walk.1 s walk.2 root

theorem resolve_attached {keys : Keys} {path : List Name} {d x : ℕ} (hd : Attached s d)
    (h : resolve keys s path d = some x) : Attached s x := by
  induction path generalizing d with
  | nil =>
    obtain rfl := Option.some.inj h
    exact hd
  | cons name rest ih =>
    rw [resolve] at h
    split at h
    · cases h
    · obtain ⟨c, hfind, hrest⟩ := Option.bind_eq_some_iff.1 h
      exact ih (Tree.attached_entry hfind) hrest

theorem dumpRound_spends (reply : XattrReply) (journal : List JEntry) (hs : Tree s)
    (hc : Counted base [] s) (hlock : reply.lock = none) {r : Outcome FsError LtfsIndex ℕ}
    (hr : xattrRound [] reply (xattrGet .dumpincj journal) s = r) :
    Spends base (dumpLeaks journal s) s r.2 ∧
      (reply.ret = none → r.1 = .ok root) := by
  subst hr
  rw [xattrRound, hlock]
  have hlook := withDentry_spec reply.keys [] (xattrGet .dumpincj journal) hs hc
  dsimp only
  generalize withDentry reply.keys [] (xattrGet .dumpincj journal) s = r at hlook ⊢
  cases hlook with
  | failed e t hnone _ _ => cases hnone
  | found d t hres ht hct =>
    obtain rfl : root = d := Option.some.inj hres
    have hget : xattrGet .dumpincj journal root t = incjDump journal t := by
      rw [xattrGet, if_pos ⟨rfl, rfl⟩]
    obtain ⟨hframe, hcount⟩ :=
      fsPathClean_foldl_spec (incjParents none journal) (hs.frame ht) hct
    simp only [resolve_frame ht] at hcount
    have hdumped := ht.trans hframe
    have hrel := fsReleaseDentry_spec (hs.frame hdumped).gone
      (hcount.perm (List.perm_append_singleton root _))
    have hall : Spends base (dumpLeaks journal s) s
        (fsReleaseDentry root (xattrGet .dumpincj journal root t)) := by
      rw [hget]
      refine .leak (hdumped.trans hrel.frame) hrel.counted fun x hx => ?_
      obtain ⟨p, _, hp⟩ := List.mem_filterMap.1 hx
      exact hs.attached_freed (resolve_attached (.inl rfl) hp)
    cases reply.ret with
    | some e => exact ⟨hall, fun h => nomatch h⟩
    | none => exact ⟨hall, fun _ => rfl⟩

/-- The lock of the first round. -/
def firstLock (again : List XattrRound) (last : XattrReply) : Option FsError :=
  (again.head?.getD last.toXattrRound).lock

theorem getxattrRounds_dump (journal : List JEntry) (again : List XattrRound)
    (last : XattrReply) (hs : Tree s) (hc : Counted base [] s) :
    Spends base (if firstLock again last = none then dumpLeaks journal s else []) s
      (getxattrRounds [] .dumpincj journal last again s).2 := by
  have hkeep : Spends base [] s s := .of_frame (Frame.refl s) hc
  cases again with
  | nil =>
    rw [getxattrRounds]
    cases hlock : last.lock with
    | some e =>
      rw [firstLock, List.head?_nil, Option.getD_none, hlock, if_neg nofun, xattrRound, hlock]
      exact hkeep
    | none =>
      rw [firstLock, List.head?_nil, Option.getD_none, hlock, if_pos rfl]
      exact (dumpRound_spends last journal hs hc hlock rfl).1
  | cons round again =>
    rw [getxattrRounds, firstLock, List.head?_cons, Option.getD_some]
    cases hlock : round.lock with
    | some e =>
      rw [if_neg (by simp), xattrRound, hlock]
      exact hkeep
    | none =>
      obtain ⟨hspends, hret⟩ := dumpRound_spends { round with } journal hs hc hlock rfl
      have hok := hret rfl
      revert hspends hok
      rw [if_pos rfl]
      generalize xattrRound [] { round with } (xattrGet .dumpincj journal) s = r
      intro hspends hok
      obtain ⟨ret, t⟩ := r
      cases hok
      dsimp only
      rw [if_pos ⟨rfl, rfl⟩]
      exact hspends

/-! ## All operations -/

/-- The references an operation will forget: to the target of a rename whose source
is WORM or whose entry is not found when it is to be removed, or to its source if the
insertion fails; to a WORM dentry whose read-only mark is to change; to a link that does
not fit the buffer; and, if the journal is dumped, to the directories above its
entries. -/
def PathOp.forgets (env : Env) (op : PathOp) (s : LtfsIndex) : List ℕ :=
  match op with
  | .rename source target mem => (ltfsFsopsRenameLeak env source target mem s).toList
  | .setReadonly path _ =>
    ((opened env path s).filter fun d => (s.dentry d).isWorm).toList
  | .readlink path buf =>
    ((opened env path s).filter fun d => buf.short (s.dentry d).target).toList
  | .getxattr path name journal again last =>
    match env.admitXattr false false path name with
    | .error _ => []
    | .ok (norm, name) =>
      if name = .dumpincj ∧ norm = [] then
        if firstLock again last = none then dumpLeaks journal s else []
      else []
  | _ => []

theorem PathOp.exec_spends (op : PathOp) (hs : Tree s) (hc : Counted base [] s) :
    Spends base (op.forgets env s) s (op.exec env s) := by
  have hsame : Spends base [] s s := .of_frame (Frame.refl s) hc
  cases op with
  | rename source target mem => exact ltfsFsopsRename_spends env source target mem hs hc
  | unlink path => exact (ltfsFsopsUnlink_spec env path hs hc).spends hs
  | setReadonly path readonly =>
    exact ltfsFsopsSetReadonlyPath_spends env path readonly hs hc
  | readlink path buf => exact ltfsFsopsReadlinkPath_spends env path buf hs hc
  | utimens path => exact ltfsFsopsUtimensPath_spends env path hs hc
  | getattr path => exact ltfsFsopsGetattrPath_spends env path hs hc
  | setxattr exempt path name size again last =>
    unfold PathOp.exec ltfsFsopsSetxattr
    dsimp only
    split
    · exact hsame
    · split
      · exact hsame
      · next norm name _ => exact (setxattrRounds_keeps norm name last again hs hc).spends
  | getxattr path name journal again last =>
    unfold PathOp.exec PathOp.forgets ltfsFsopsGetxattr
    dsimp only
    cases env.admitXattr false false path name with
    | error e => exact hsame
    | ok named =>
      obtain ⟨norm, name⟩ := named
      dsimp only
      split
      · next hdump =>
        obtain ⟨rfl, rfl⟩ := hdump
        exact getxattrRounds_dump journal again last hs hc
      · next hdump =>
        exact (getxattrRounds_keeps norm name journal last again hs hc hdump).spends
  | listxattr path reply =>
    unfold PathOp.exec ltfsFsopsListxattr
    dsimp only
    split
    · exact hsame
    · exact (xattrRound_keeps _ reply hs hc fun d u _ hcu =>
        ⟨SameTree.refl u, hcu⟩).1.spends
  | removexattr path name reply =>
    unfold PathOp.exec ltfsFsopsRemovexattr
    dsimp only
    split
    · exact hsame
    · next norm name _ =>
      exact (xattrRound_keeps _ reply hs hc fun d u _ hcu =>
        changeXattr_keeps name reply d hcu).1.spends

/-- On every tree, an operation by path gives back all references exactly if it is
not one of those that forget some. -/
theorem pathOp_conserves_iff (op : PathOp) (hs : Tree s) (href : Referenced s) :
    Conserves s (op.exec env s) ↔ op.forgets env s = [] := by
  obtain ⟨base, hc⟩ := href.counted
  exact (op.exec_spends hs hc).conserves_iff hc href

theorem Mounted.deleted {blocksize : ℕ} (h : Mounted blocksize s) (d : ℕ) :
    (s.dentry d).deleted = false := by
  induction h with
  | alloc =>
    by_cases hd : d = root
    · rw [hd]
      rfl
    · rw [ltfsIndexAlloc_dentry blocksize hd]
  | load p obj s _ _ _ _ ih =>
    rw [(loadDentry_sameTree p obj s).deleted]
    by_cases hd : d = s.next
    · rw [hd, entered_self Dentry.deleted (fun _ _ => rfl) fun _ _ _ => rfl]
      rfl
    · rw [entered_of_ne Dentry.deleted (fun _ _ => rfl) (fun _ _ _ => rfl) hd]
      exact ih

theorem Mounted.referenced {blocksize : ℕ} (h : Mounted blocksize s) : Referenced s := by
  intro d hd
  rw [h.counted.count d hd, Dentry.tree, h.deleted d, List.count_nil]
  decide

/-- A file that is immutable. -/
def sampleFile : Loaded where
  name := [0x61]
  isImmutable := true
  uid := 2
  plain := fun _ => rfl

/-- A link to that file. -/
def sampleLink : Loaded where
  name := [0x62]
  isslink := true
  target := [0x2F, 0x61]
  uid := 3
  plain := fun _ => rfl

def sampleVolume : LtfsIndex :=
  loadDentry root sampleLink (loadDentry root sampleFile (ltfsIndexAlloc 512))

theorem sampleVolume_mounted : Mounted 512 sampleVolume :=
  .load root _ _ (.load root _ _ .alloc (.inl rfl) rfl rfl) (.inl rfl) rfl rfl

def sampleOther : Loaded where
  name := [0x63]
  uid := 4
  plain := fun _ => rfl

/-- Getting the attributes of `/a`. -/
theorem pathOp_conserves_getattr :
    Conserves sampleVolume ((PathOp.getattr (.ok [[0x61]])).exec {} sampleVolume) :=
  (pathOp_conserves_iff _ sampleVolume_mounted.tree sampleVolume_mounted.referenced).2 rfl

/-- Changing the mark of `/a`, renaming it over `/b`, and reading the link into a
buffer that is too small; and renaming `/c` over `/b` with no memory to look for the
`/b` it removes. -/
theorem pathOp_conserves_lost :
    ¬ Conserves sampleVolume
      ((PathOp.setReadonly (.ok [[0x61]]) true).exec {} sampleVolume) ∧
    ¬ Conserves sampleVolume
      ((PathOp.rename (.ok [[0x61]]) (.ok [[0x62]]) {}).exec {} sampleVolume) ∧
    ¬ Conserves sampleVolume
      ((PathOp.readlink (.ok [[0x62]]) { size := 2 }).exec {} sampleVolume) ∧
    ¬ Conserves (loadDentry root sampleOther sampleVolume)
      ((PathOp.rename (.ok [[0x63]]) (.ok [[0x62]]) { replacedKey := false }).exec {}
        (loadDentry root sampleOther sampleVolume)) := by
  refine ⟨fun h => ?_, fun h => ?_, fun h => ?_, fun h => ?_⟩
  · exact absurd (h.numhandles 1 (by decide) (by decide)) (by decide)
  · exact absurd (h.numhandles 2 (by decide) (by decide)) (by decide)
  · exact absurd (h.numhandles 2 (by decide) (by decide)) (by decide)
  · exact absurd (h.numhandles 2 (by decide) (by decide)) (by decide)

end AuroraLtfs.Fs
