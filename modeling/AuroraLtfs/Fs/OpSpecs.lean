import AuroraLtfs.Fs.Changes

/-!
# What the operations do to the tree

For create, unlink and rename: either only references moved, or one of the three
changes has been made.  Every outcome says what has become of the references.
-/

namespace AuroraLtfs.Fs

open AuroraLtfs.ParentChain

variable {base : ℕ → ℕ} {refs : List ℕ} {s t : LtfsIndex}

/-! ## References across a change -/

/-- One more reference to `d` that nobody will give back. -/
def bump (base : ℕ → ℕ) (d : ℕ) : ℕ → ℕ := Function.update base d (base d + 1)

theorem bump_self (base : ℕ → ℕ) (d : ℕ) : bump base d d = base d + 1 :=
  Function.update_self d _ base

theorem bump_of_ne {base : ℕ → ℕ} {d x : ℕ} (hx : x ≠ d) : bump base d x = base x :=
  Function.update_of_ne hx _ base

namespace Counted

/-- A reference that is forgotten stays with the dentry. -/
theorem leak {d : ℕ} (h : Counted base (d :: refs) s) :
    Counted (bump base d) refs s where
  count := fun x hx => by
    have hcount := h.count x hx
    by_cases hxd : x = d
    · subst hxd
      rw [List.count_cons_self] at hcount
      rw [hcount, bump_self]
      push_cast
      ring
    · rw [List.count_cons_of_ne (Ne.symm hxd)] at hcount
      rw [hcount, bump_of_ne hxd]
  live := fun x hx => h.live x (List.mem_cons_of_mem d hx)
  kept := fun x hx => by
    by_cases hxd : x = d
    · subst hxd
      exact h.live x List.mem_cons_self
    · rw [bump_of_ne hxd] at hx
      exact h.kept x hx
  idle := h.idle

variable (h : Counted base refs s)

include h

theorem same (hhandles : ∀ x, (t.dentry x).numhandles = (s.dentry x).numhandles)
    (hdeleted : ∀ x, (t.dentry x).deleted = (s.dentry x).deleted)
    (hfreed : ∀ x, (t.dentry x).freed = (s.dentry x).freed)
    (hsync : ∀ x, (t.dentry x).outOfSync = (s.dentry x).outOfSync) : Counted base refs t where
  count := fun x hx => by
    rw [hfreed] at hx
    rw [hhandles, h.count x hx, Dentry.tree, Dentry.tree, hdeleted]
  live := fun x hx => (hfreed x).trans (h.live x hx)
  kept := fun x hx => (hfreed x).trans (h.kept x hx)
  idle := fun x hx hzero => by
    rw [hfreed] at hx
    rw [hhandles] at hzero
    exact (hsync x).trans (h.idle x hx hzero)

theorem modify {d : ℕ} {f : Dentry → Dentry}
    (hhandles : (f (s.dentry d)).numhandles = (s.dentry d).numhandles)
    (hdeleted : (f (s.dentry d)).deleted = (s.dentry d).deleted)
    (hfreed : (f (s.dentry d)).freed = (s.dentry d).freed)
    (hsync : (f (s.dentry d)).outOfSync = (s.dentry d).outOfSync) :
    Counted base refs (s.modify d f) :=
  h.same (modify_field Dentry.numhandles hhandles)
    (modify_field Dentry.deleted hdeleted) (modify_field Dentry.freed hfreed)
    (modify_field Dentry.outOfSync hsync)

theorem base_eq_zero {d : ℕ} (hd : (s.dentry d).freed = true) : base d = 0 := by
  by_contra hne
  rw [h.kept d (Nat.pos_of_ne_zero hne)] at hd
  cases hd

theorem count_eq_zero {d : ℕ} (hd : (s.dentry d).freed = true) : refs.count d = 0 := by
  rw [List.count_eq_zero]
  intro hmem
  rw [h.live d hmem] at hd
  cases hd

/-- The caller of a create holds a reference to the new dentry. -/
theorem entered {p : ℕ} {name : Name} {isdir readonly : Bool} {mem : Memory} {uid : ℕ}
    (hs : Tree s) :
    Counted base (s.next :: refs) (entered p name isdir readonly mem uid s) where
  count := fun x hx => by
    by_cases hxn : x = s.next
    · subst hxn
      have hfresh := hs.fresh_freed (le_refl s.next)
      rw [entered_self Dentry.numhandles (fun _ _ => rfl) fun _ _ _ => rfl,
        entered_self Dentry.tree (fun _ _ => rfl) fun _ _ _ => rfl,
        List.count_cons_self, h.base_eq_zero hfresh, h.count_eq_zero hfresh]
      rfl
    · rw [entered_of_ne Dentry.freed (fun _ _ => rfl) (fun _ _ _ => rfl) hxn] at hx
      rw [entered_of_ne Dentry.numhandles (fun _ _ => rfl) (fun _ _ _ => rfl) hxn,
        entered_of_ne Dentry.tree (fun _ _ => rfl) (fun _ _ _ => rfl) hxn,
        List.count_cons_of_ne (Ne.symm hxn)]
      exact h.count x hx
  live := fun x hx => by
    by_cases hxn : x = s.next
    · subst hxn
      exact entered_self Dentry.freed (fun _ _ => rfl) fun _ _ _ => rfl
    · rw [entered_of_ne Dentry.freed (fun _ _ => rfl) (fun _ _ _ => rfl) hxn]
      exact h.live x ((List.mem_cons.1 hx).resolve_left hxn)
  kept := fun x hx => by
    have hlive := h.kept x hx
    have hxn : x ≠ s.next := by
      rintro rfl
      rw [hs.fresh_freed le_rfl] at hlive
      cases hlive
    rw [entered_of_ne Dentry.freed (fun _ _ => rfl) (fun _ _ _ => rfl) hxn]
    exact hlive
  idle := fun x hx hzero => by
    by_cases hxn : x = s.next
    · subst hxn
      rw [entered_self Dentry.numhandles (fun _ _ => rfl) fun _ _ _ => rfl] at hzero
      cases hzero
    · rw [entered_of_ne Dentry.freed (fun _ _ => rfl) (fun _ _ _ => rfl) hxn] at hx
      rw [entered_of_ne Dentry.numhandles (fun _ _ => rfl) (fun _ _ _ => rfl) hxn] at hzero
      rw [entered_of_ne Dentry.outOfSync (fun _ _ => rfl) (fun _ _ _ => rfl) hxn]
      exact h.idle x hx hzero

/-- A dentry that leaves the tree loses the reference of the tree, while the call
that removes it holds one. -/
theorem detached {p d : ℕ} {n : Name} (hs : Tree s) (hmem : (n, d) ∈ (s.dentry p).childList)
    (hheld : d ∈ refs) : Counted base refs (detached p d s) := by
  have hdp := hs.entry_ne hmem
  have hfreed : ∀ x, ((Fs.detached p d s).dentry x).freed = (s.dentry x).freed := by
    intro x
    by_cases hxd : x = d
    · subst hxd
      exact detached_self Dentry.freed (fun _ _ => rfl) hdp
    · exact detached_of_ne Dentry.freed (fun _ _ => rfl) (fun _ _ => rfl) hxd
  have hcounted (x : ℕ) (hx : (s.dentry x).freed = false) :
      ((Fs.detached p d s).dentry x).numhandles =
        base x + ((Fs.detached p d s).dentry x).tree + refs.count x := by
    have hcount := h.count x hx
    by_cases hxd : x = d
    · subst hxd
      rw [detached_self Dentry.numhandles (fun _ _ => rfl) hdp,
        detached_self Dentry.tree (fun _ _ => rfl) hdp]
      rw [Dentry.tree, hs.entry_deleted hmem] at hcount
      rw [if_neg Bool.false_ne_true] at hcount
      show (s.dentry x).numhandles - 1 = base x + 0 + refs.count x
      omega
    · rw [detached_of_ne Dentry.numhandles (fun _ _ => rfl) (fun _ _ => rfl) hxd,
        detached_of_ne Dentry.tree (fun _ _ => rfl) (fun _ _ => rfl) hxd]
      exact hcount
  refine ⟨fun x hx => hcounted x ((hfreed x).symm.trans hx),
    fun x hx => (hfreed x).trans (h.live x hx),
    fun x hx => (hfreed x).trans (h.kept x hx), fun x hx hzero => ?_⟩
  rw [hfreed] at hx
  by_cases hxd : x = d
  · subst hxd
    have hpos := List.count_pos_iff.2 hheld
    rw [hcounted x hx, Dentry.tree] at hzero
    split at hzero <;> omega
  · rw [detached_of_ne Dentry.numhandles (fun _ _ => rfl) (fun _ _ => rfl) hxd] at hzero
    rw [detached_of_ne Dentry.outOfSync (fun _ _ => rfl) (fun _ _ => rfl) hxd]
    exact h.idle x hx hzero

theorem relocated {fromdir todir d : ℕ} {name : Name} {mem : Memory} (hd : d ≠ fromdir) :
    Counted base refs (relocated fromdir todir d name mem s) := by
  exact h.same
    (relocated_field Dentry.numhandles s hd (fun _ _ => rfl) (fun _ _ _ => rfl)
      (fun _ _ => rfl) fun _ _ _ => rfl)
    (relocated_field Dentry.deleted s hd (fun _ _ => rfl) (fun _ _ _ => rfl)
      (fun _ _ => rfl) fun _ _ _ => rfl)
    (relocated_field Dentry.freed s hd (fun _ _ => rfl) (fun _ _ _ => rfl)
      (fun _ _ => rfl) fun _ _ _ => rfl)
    (relocated_field Dentry.outOfSync s hd (fun _ _ => rfl) (fun _ _ _ => rfl)
      (fun _ _ => rfl) fun _ _ _ => rfl)

end Counted

/-- What had left the tree still holds nothing after a change, wherever the
dentry concerned has been hung. -/
theorem Rehung.gone {d : ℕ} {place : Place} (h : Rehung s d place t) (hs : Tree s)
    (hplace : ∀ p n, place = some (p, n) → (s.dentry p).deleted = false)
    (hd : (t.dentry d).deleted = true →
      (t.dentry d).childList = [] ∧ (t.dentry d).parent = none) : Gone t := by
  intro x hx
  by_cases hxd : x = d
  · subst hxd
    exact hd hx
  · rw [h.deleted x hxd] at hx
    rw [h.lists, h.parent x hxd, hs.gone_childList hx]
    refine ⟨?_, hs.gone_parent hx⟩
    rw [show without d [] = [] from rfl, List.nil_append]
    unfold entriesAt
    split
    · rfl
    · next p n =>
      rw [if_neg]
      rintro rfl
      rw [hplace x n rfl] at hx
      cases hx

/-! ## Create -/

/-- The outcome of a create: nothing but references, or a new dentry. -/
inductive CreateOutcome (base : ℕ → ℕ) (refs : List ℕ) (s : LtfsIndex) (p : ℕ)
    (name : Name) (isdir readonly : Bool) (mem : Memory) :
    Outcome FsError LtfsIndex ℕ → Prop
  | unchanged (e : FsError) (t : LtfsIndex) : Frame s t → Counted base refs t →
      CreateOutcome base refs s p name isdir readonly mem (.error e, t)
  | entered (uid : ℕ) (s₁ t : LtfsIndex) (r : Except FsError ℕ) :
      Frame s s₁ → Attached s p → (s.dentry p).findKey name = none →
      SameTree (entered p name isdir readonly mem uid s₁) t →
      SameTotals ((entered p name isdir readonly mem uid s₁).countFile
        (if mem.failed then 0 else 1) isdir) t →
      (∀ d, r = .ok d → d = s₁.next ∧ Counted base (d :: refs) t) →
      (∀ e, r = .error e → ∃ base', Counted base' refs t) →
      CreateOutcome base refs s p name isdir readonly mem (r, t)

theorem entered_gone {p : ℕ} {name : Name} {isdir readonly : Bool} {mem : Memory}
    {uid : ℕ} (hs : Tree s) (hp : Attached s p) :
    Gone (entered p name isdir readonly mem uid s) := by
  refine (entered_rehung hs).gone hs (fun q n h => ?_) fun hdel => ?_
  · obtain ⟨_, rfl, _⟩ := newPlace_eq_some h
    exact hs.attached_deleted hp
  · rw [entered_self Dentry.deleted (fun _ _ => rfl) fun _ _ _ => rfl] at hdel
    cases hdel

theorem Gone.same (hs : Gone s) (h : SameTree s t) : Gone t := by
  intro d hd
  rw [h.deleted] at hd
  rw [h.childList, h.parent]
  exact hs d hd

/-- Counting a file and marking the new dentry is all that follows. -/
theorem createDentry_eq (p : ℕ) (name : Name) (isdir readonly : Bool)
    (mem : Memory) (worm : Option FsError) (uid : ℕ) (s : LtfsIndex) :
    createDentry p name isdir readonly mem worm uid s =
      let e := entered p name isdir readonly mem uid s
      if mem.failed then (.error .noMemory, e)
      else if (((e.countFile 1 isdir).dentry p).isAppendonly) then
        match worm with
        | none => (.ok s.next, (e.countFile 1 isdir).modify s.next Dentry.appendonly)
        | some err => (.error err, fsReleaseDentry s.next (e.countFile 1 isdir))
      else (.ok s.next, e.countFile 1 isdir) := rfl

theorem createDentry_spec {p : ℕ} {name : Name} {isdir readonly : Bool} {mem : Memory}
    {worm : Option FsError} {uid : ℕ} (hs : Tree s) (hc : Counted base refs s)
    (hp : Attached s p) (hvacant : (s.dentry p).findKey name = none) :
    CreateOutcome base refs s p name isdir readonly mem
      (createDentry p name isdir readonly mem worm uid s) := by
  obtain ⟨e, he⟩ : ∃ e, e = entered p name isdir readonly mem uid s := ⟨_, rfl⟩
  have hent : Counted base (s.next :: refs) e := he ▸ hc.entered hs
  have hgone : Gone e := he ▸ entered_gone hs hp
  rw [createDentry_eq]
  simp only [← he]
  by_cases hfailed : mem.failed = true
  · rw [if_pos hfailed]
    refine .entered uid s e _ (Frame.refl s) hp hvacant ?_ ?_ (fun d h => nomatch h)
      fun _ _ => ⟨_, hent.leak⟩
    · rw [he]; exact SameTree.refl _
    · rw [if_pos hfailed, ← he]
      refine .of_dentry (countFile_dentry 0 isdir).symm ?_
        (countFile_validBlocks 0 isdir).symm
      rw [countFile_fileCount]
      split <;> rw [add_zero]
  · rw [if_neg hfailed]
    obtain ⟨c, hcf⟩ : ∃ c, c = e.countFile 1 isdir := ⟨_, rfl⟩
    have hdentry : c.dentry = e.dentry := hcf ▸ countFile_dentry 1 isdir
    have htree : SameTree e c := SameTree.of_dentry hdentry (hcf ▸ countFile_next 1 isdir)
    have hcount : Counted base (s.next :: refs) c := hent.of_dentry hdentry
    have hsame : SameTotals (e.countFile (if mem.failed then 0 else 1) isdir) c := by
      rw [if_neg hfailed, ← hcf]
      exact (Frame.refl c).sameTotals
    rw [← hcf]
    split
    · cases worm with
      | none =>
        have hmark : SameTree c (c.modify s.next Dentry.appendonly) :=
          SameTree.modify rfl rfl
        refine .entered uid s _ _ (Frame.refl s) hp hvacant ?_ ?_ (fun d h => ?_)
          fun _ h => nomatch h
        · rw [← he]; exact htree.trans hmark
        · rw [← he]
          exact hsame.trans ⟨modify_field Dentry.usedBlocks rfl,
            modify_field Dentry.extentlist rfl, rfl, rfl⟩
        · obtain rfl := Except.ok.inj h
          exact ⟨rfl, hcount.modify rfl rfl rfl rfl⟩
      | some err =>
        have hrel := fsReleaseDentry_spec (hgone.same htree) hcount
        refine .entered uid s _ _ (Frame.refl s) hp hvacant ?_ ?_ (fun d h => nomatch h)
          fun _ _ => ⟨base, hrel.counted⟩
        · rw [← he]; exact htree.trans hrel.frame.sameTree
        · rw [← he]; exact hsame.trans hrel.frame.sameTotals
    · refine .entered uid s c _ (Frame.refl s) hp hvacant (he ▸ htree) (he ▸ hsame)
        (fun d h => ?_) fun _ h => nomatch h
      obtain rfl := Except.ok.inj h
      exact ⟨rfl, hcount⟩

theorem fsAllocateUid_frame (s : LtfsIndex) : Frame s (fsAllocateUid s).2 := by
  unfold fsAllocateUid
  split
  · exact Frame.refl s
  · exact ⟨fun _ => rfl, fun _ => .inl rfl, rfl, rfl, rfl, rfl⟩

theorem fsAllocateUid_counted (hc : Counted base refs s) :
    Counted base refs (fsAllocateUid s).2 := by
  refine hc.of_dentry ?_
  unfold fsAllocateUid
  split <;> rfl

namespace CreateOutcome

variable {p : ℕ} {name : Name} {isdir readonly : Bool} {mem : Memory}
variable {r : Outcome FsError LtfsIndex ℕ}

theorem mono (hframe : Frame s t)
    (h : CreateOutcome base refs t p name isdir readonly mem r) :
    CreateOutcome base refs s p name isdir readonly mem r := by
  cases h with
  | unchanged e u hu hc => exact .unchanged e u (hframe.trans hu) hc
  | entered uid s₁ u r hs₁ hp hvacant htree htotals hok herr =>
    exact .entered uid s₁ u r (hframe.trans hs₁) (hp.of_frame hframe)
      ((hframe.findKey p name).symm.trans hvacant) htree htotals hok herr

/-- The reference to the parent is given back last. -/
theorem release (hs : Tree s)
    (h : CreateOutcome base (p :: refs) s p name isdir readonly mem r) :
    CreateOutcome base refs s p name isdir readonly mem
      (r.1, fsReleaseDentry p r.2) := by
  cases h with
  | unchanged e u hu hc =>
    have hrel := fsReleaseDentry_spec (hs.frame hu).gone hc
    exact .unchanged e _ (hu.trans hrel.frame) hrel.counted
  | entered uid s₁ u r hs₁ hp hvacant htree htotals hok herr =>
    have hgone : Gone u := (entered_gone (hs.frame hs₁) (hp.frame hs₁)).same htree
    obtain ⟨base', hc⟩ : ∃ base', Counted base' (p :: refs) u := by
      cases r with
      | error e => exact herr e rfl
      | ok d =>
        obtain ⟨rfl, hc⟩ := hok d rfl
        exact ⟨_, hc.leak⟩
    have hrel := fsReleaseDentry_spec hgone hc
    refine .entered uid s₁ _ r hs₁ hp hvacant (htree.trans hrel.frame.sameTree)
      (htotals.trans hrel.frame.sameTotals) (fun d hd => ?_)
      fun _ _ => ⟨base', hrel.counted⟩
    obtain ⟨hnext, hcd⟩ := hok d hd
    exact ⟨hnext, (fsReleaseDentry_spec hgone (hcd.perm (List.Perm.swap p d refs))).counted⟩

end CreateOutcome

theorem createIn_spec {p : ℕ} (name : Name) (isdir readonly overwrite : Bool)
    (mem : Memory) (worm : Option FsError) (hs : Tree s) (hc : Counted base refs s)
    (hp : Attached s p) (hsees : (s.dentry p).Sees mem.nameKey name) :
    CreateOutcome base refs s p name isdir readonly mem
      (createIn p name isdir readonly overwrite mem worm s) := by
  rw [createIn]
  split
  · exact .unchanged _ s (Frame.refl s) hc
  · have hlook := fsDirectoryLookup_spec hs hc mem.nameKey p name
    generalize fsDirectoryLookup mem.nameKey p name s = found at hlook ⊢
    cases hlook with
    | refused _ => exact .unchanged _ s (Frame.refl s) hc
    | found d u _ _ hframe hcu =>
      have hrel := fsReleaseDentry_spec (hs.frame hframe).gone hcu
      exact .unchanged _ _ (hframe.trans hrel.frame) hrel.counted
    | absent _ hnone =>
      have hvacant := hsees.findKey hnone
      by_cases hobjects : mem.objects = true
      · simp only [hobjects, if_true]
        have hframe := fsAllocateUid_frame s
        have hcounted := fsAllocateUid_counted hc
        split
        · exact .unchanged _ _ hframe hcounted
        · exact (createDentry_spec (hs.frame hframe) hcounted (hp.frame hframe)
            ((hframe.findKey p name).trans hvacant)).mono hframe
      · simp only [hobjects]
        exact .unchanged _ s (Frame.refl s) hc

theorem ltfsFsopsCreate_spec (env : Env) (path : Except FsError Path)
    (isdir readonly overwrite : Bool) (mem : Memory) (worm : Option FsError)
    (hs : Tree s) (hc : Counted base refs s) {r : Outcome FsError LtfsIndex ℕ}
    (hr : ltfsFsopsCreate env path isdir readonly overwrite mem worm s = r) :
    (∃ e t, r = (.error e, t) ∧ Frame s t ∧ Counted base refs t) ∨
      ∃ norm p, env.admitCreate path = .ok norm ∧
        resolve env.keys s (fsSplitPath norm).1 root = some p ∧
        ((s.dentry p).Sees mem.nameKey (fsSplitPath norm).2 →
          CreateOutcome base refs s p (fsSplitPath norm).2 isdir readonly mem r) := by
  subst hr
  rw [ltfsFsopsCreate]
  cases hadm : env.admitCreate path with
  | error e => exact .inl ⟨e, s, rfl, Frame.refl s, hc⟩
  | ok norm =>
    have hwalk := fsPathLookup_spec env.keys false (fsSplitPath norm).1 hs hc
    dsimp only
    generalize fsPathLookup env.keys false (fsSplitPath norm).1 s = found at hwalk ⊢
    cases hwalk with
    | failed e u _ hu hcu => exact .inl ⟨e, u, rfl, hu, hcu⟩
    | found p u hres hp hu _ hcu =>
      refine .inr ⟨norm, p, rfl, hres, fun hsees => CreateOutcome.mono hu ?_⟩
      have hsees' : (u.dentry p).Sees mem.nameKey (fsSplitPath norm).2 := by
        rw [Dentry.Sees, hu.findKey]
        exact hsees
      exact (createIn_spec _ _ _ _ _ _ (hs.frame hu) hcu (hp.frame hu) hsees').release
        (hs.frame hu)
    | kept _ _ _ hkeep => cases hkeep

/-! ## Unlink -/

/-- The outcome of an unlink: nothing but references, or a dentry taken out. -/
inductive UnlinkOutcome (base : ℕ → ℕ) (refs : List ℕ) (s : LtfsIndex) :
    Outcome FsError LtfsIndex Unit → Prop
  | unchanged (r : Except FsError Unit) (t : LtfsIndex) : Frame s t →
      Counted base refs t → UnlinkOutcome base refs s (r, t)
  | removed (p d : ℕ) (n : Name) (s₁ t : LtfsIndex) : Frame s s₁ →
      (n, d) ∈ (s₁.dentry p).childList → (s₁.dentry d).childList = [] →
      SameTree (detached p d s₁) t →
      SameTotals (((detached p d s₁).countFile (-1) (s₁.dentry d).isdir).addBlocks
        (-(s₁.dentry d).usedBlocks)) t →
      Counted base refs t → UnlinkOutcome base refs s (.ok (), t)

theorem Tree.leaf_of_refused (hs : Tree s) {d : ℕ}
    (h : ¬ ((s.dentry d).isdir && decide ((s.dentry d).childList ≠ [])) = true) :
    (s.dentry d).childList = [] := by
  by_contra hne
  exact h (by rw [hs.owner_isdir hne]; simpa using hne)

theorem Tree.entry_of_parent (hs : Tree s) {p d : ℕ} (hd : Attached s d)
    (hp : (s.dentry d).parent = some p) :
    ((s.dentry d).name, d) ∈ (s.dentry p).childList := by
  cases hd with
  | inl hroot => rw [hroot, hs.root_parent] at hp; cases hp
  | inr hentry =>
    obtain ⟨q, n, hmem⟩ := hentry
    have hq := hs.entry_parent hmem
    rw [hp, Option.some.injEq] at hq
    rw [hs.entry_name hmem, hq]
    exact hmem

theorem unlinkIn_spec (copied : Bool) {p d : ℕ} (hs : Tree s) (hc : Counted base refs s)
    (hheld : d ∈ refs) (hd : Attached s d) (hp : (s.dentry d).parent = some p) :
    UnlinkOutcome base refs s (unlinkIn copied p d s) := by
  have hmem := hs.entry_of_parent hd hp
  rw [unlinkIn]
  split
  · exact .unchanged _ s (Frame.refl s) hc
  split
  · exact .unchanged _ s (Frame.refl s) hc
  split
  · exact .unchanged _ s (Frame.refl s) hc
  next hempty =>
    have hleaf := hs.leaf_of_refused hempty
    split
    · exact .unchanged _ s (Frame.refl s) hc
    · refine .removed p d _ s _ (Frame.refl s) hmem hleaf ?_ ?_ ?_
      · exact SameTree.of_dentry (countFile_dentry (-1) (s.dentry d).isdir)
          (countFile_next (-1) (s.dentry d).isdir)
      · exact .of_dentry rfl rfl rfl
      · exact (hc.detached hs hmem hheld).of_dentry
          (countFile_dentry (-1) (s.dentry d).isdir)

/-- Giving back the references to the dentry and its parent. -/
theorem UnlinkOutcome.release {p d : ℕ} {r : Outcome FsError LtfsIndex Unit}
    (hs : Tree s) (h : UnlinkOutcome base (d :: p :: refs) s r) :
    UnlinkOutcome base refs s (r.1, fsReleaseDentry d (fsReleaseDentry p r.2)) := by
  have hboth (u : LtfsIndex) (hu : Gone u) (hc : Counted base (d :: p :: refs) u) :
      Releases base refs u (fsReleaseDentry d (fsReleaseDentry p u)) := by
    have hfirst := fsReleaseDentry_spec hu (hc.perm (List.Perm.swap p d refs))
    have hsecond := fsReleaseDentry_spec (hu.frame hfirst.frame) hfirst.counted
    exact ⟨hfirst.frame.trans hsecond.frame, hsecond.counted⟩
  cases h with
  | unchanged r u hu hc =>
    have hrel := hboth u (hs.frame hu).gone hc
    exact .unchanged r _ (hu.trans hrel.frame) hrel.counted
  | removed q e n s₁ u hs₁ hmem hleaf htree htotals hc =>
    have hs' := hs.frame hs₁
    have hgone : Gone u := ((detached_rehung hs' hmem).tree hs'
      (detached_fits hs' hmem hleaf)).gone.same htree
    have hrel := hboth u hgone hc
    exact .removed q e n s₁ _ hs₁ hmem hleaf (htree.trans hrel.frame.sameTree)
      (htotals.trans hrel.frame.sameTotals) hrel.counted

theorem UnlinkOutcome.mono {r : Outcome FsError LtfsIndex Unit}
    (hframe : Frame s t) (h : UnlinkOutcome base refs t r) :
    UnlinkOutcome base refs s r := by
  cases h with
  | unchanged r u hu hc => exact .unchanged r u (hframe.trans hu) hc
  | removed p d n s₁ u hs₁ hmem hleaf htree htotals hc =>
    exact .removed p d n s₁ u (hframe.trans hs₁) hmem hleaf htree htotals hc

theorem Env.admitUnlink_ne_nil {env : Env} {path : Except FsError Path}
    {norm : Path} (h : env.admitUnlink path = .ok norm) : norm ≠ [] := by
  rintro rfl
  revert h
  unfold Env.admitUnlink
  cases refuse env.scheduler <;> cases refuse env.writable <;>
    cases refuse env.unitReady <;> cases sourcePath path with
  | error e => intro h; cases h
  | ok p =>
    by_cases hp : p = []
    · simp [hp, bind, Except.bind, throw, throwThe, MonadExceptOf.throw]
    · cases refuse env.volumeLock <;> simp [hp, bind, Except.bind, pure, Except.pure]

theorem ltfsFsopsUnlink_spec (env : Env) (path : Except FsError Path)
    (hs : Tree s) (hc : Counted base refs s) :
    UnlinkOutcome base refs s (ltfsFsopsUnlink env path s) := by
  rw [ltfsFsopsUnlink]
  cases hadm : env.admitUnlink path with
  | error e => exact .unchanged _ s (Frame.refl s) hc
  | ok norm =>
    have hwalk := fsPathLookup_spec env.keys true norm hs hc
    dsimp only
    generalize fsPathLookup env.keys true norm s = found at hwalk ⊢
    cases hwalk with
    | failed e u _ hu hcu => exact .unchanged _ u hu hcu
    | found d u _ _ _ hkeep _ =>
      cases hkeep with
      | inl hfalse => cases hfalse
      | inr hnil => exact absurd hnil (Env.admitUnlink_ne_nil hadm)
    | kept d p u _ _ hp hd hu hcu =>
      have hparent : (u.dentry d).parent = some p := (hu.parent d).trans hp
      refine UnlinkOutcome.mono hu ?_
      simp only [hparent, Option.getD_some]
      exact (unlinkIn_spec env.unlinkKey (hs.frame hu) hcu List.mem_cons_self (hd.frame hu)
        hparent).release (hs.frame hu)

end AuroraLtfs.Fs
