import AuroraLtfs.Fs.Ops

/-!
# References and the shape of the tree

`Tree` says what the child lists and parent pointers have to do with each other.
`Counted` accounts for every reference: one for the tree, those of a base that
does not change during a call, and those the call itself holds.  Taking and
giving back references changes nothing else; a structure is freed only when
nothing refers to it any more.
-/

namespace AuroraLtfs.Fs

open AuroraLtfs.ParentChain

variable {s t u : LtfsIndex} {base : ℕ → ℕ} {refs : List ℕ} {d : ℕ}

/-! ## What references leave alone -/

/-- A dentry without its reference count and its place in memory. -/
def Dentry.core (d : Dentry) : Dentry :=
  { d with numhandles := 0, freed := false }

/-- Only references have been taken or given back, and only structures that had
left the tree may have been freed. -/
structure Frame (s t : LtfsIndex) : Prop where
  core : ∀ d, (t.dentry d).core = (s.dentry d).core
  freed : ∀ d, (t.dentry d).freed = (s.dentry d).freed ∨
    (s.dentry d).deleted = true
  next : t.next = s.next
  fileCount : t.fileCount = s.fileCount
  validBlocks : t.validBlocks = s.validBlocks
  blocksize : t.blocksize = s.blocksize

namespace Frame

theorem refl (s : LtfsIndex) : Frame s s where
  core := fun _ => rfl
  freed := fun _ => .inl rfl
  next := rfl
  fileCount := rfl
  validBlocks := rfl
  blocksize := rfl

theorem field {γ : Type*} (h : Frame s t) (f : Dentry → γ)
    (hf : ∀ x : Dentry, f x.core = f x) (d : ℕ) : f (t.dentry d) = f (s.dentry d) := by
  rw [← hf, h.core, hf]

section Fields

variable (h : Frame s t) (d : ℕ)

include h

theorem parent : (t.dentry d).parent = (s.dentry d).parent :=
  h.field Dentry.parent (fun _ => rfl) d

theorem isdir : (t.dentry d).isdir = (s.dentry d).isdir :=
  h.field Dentry.isdir (fun _ => rfl) d

theorem deleted : (t.dentry d).deleted = (s.dentry d).deleted :=
  h.field Dentry.deleted (fun _ => rfl) d

theorem childList : (t.dentry d).childList = (s.dentry d).childList :=
  h.field Dentry.childList (fun _ => rfl) d

theorem usedBlocks : (t.dentry d).usedBlocks = (s.dentry d).usedBlocks :=
  h.field Dentry.usedBlocks (fun _ => rfl) d

theorem extentlist : (t.dentry d).extentlist = (s.dentry d).extentlist :=
  h.field Dentry.extentlist (fun _ => rfl) d

theorem isWorm : (t.dentry d).isWorm = (s.dentry d).isWorm :=
  h.field Dentry.isWorm (fun _ => rfl) d

theorem findKey (name : Name) : (t.dentry d).findKey name = (s.dentry d).findKey name :=
  h.field (fun dentry => Dentry.findKey dentry name) (fun _ => rfl) d

end Fields

theorem findCopied (h : Frame s t) (copied : Bool) (d : ℕ) (name : Name) :
    (t.dentry d).findCopied copied name = (s.dentry d).findCopied copied name :=
  h.field (fun dentry => Dentry.findCopied copied dentry name) (fun _ => rfl) d

theorem trans (hst : Frame s t) (htu : Frame t u) : Frame s u where
  core := fun d => (htu.core d).trans (hst.core d)
  freed := fun d => by
    cases htu.freed d with
    | inl hfreed => rw [hfreed]; exact hst.freed d
    | inr hdeleted => exact .inr ((hst.deleted d).symm.trans hdeleted)
  next := htu.next.trans hst.next
  fileCount := htu.fileCount.trans hst.fileCount
  validBlocks := htu.validBlocks.trans hst.validBlocks
  blocksize := htu.blocksize.trans hst.blocksize

theorem handle (s : LtfsIndex) (d : ℕ) (n : ℤ) :
    Frame s (s.modify d (Dentry.handle n)) where
  core := fun x => by
    rw [LtfsIndex.modify_dentry]
    split
    · next h => rw [h]; rfl
    · rfl
  freed := fun x => by
    rw [LtfsIndex.modify_dentry]
    split
    · next h => rw [h]; exact .inl rfl
    · exact .inl rfl
  next := rfl
  fileCount := rfl
  validBlocks := rfl
  blocksize := rfl

theorem free (hdeleted : (s.dentry d).deleted = true) : Frame s (s.modify d Dentry.free) where
  core := fun x => by
    rw [LtfsIndex.modify_dentry]
    split
    · next h => rw [h]; rfl
    · rfl
  freed := fun x => by
    by_cases hx : x = d
    · exact .inr (hx ▸ hdeleted)
    · exact .inl (by rw [LtfsIndex.modify_dentry_of_ne hx])
  next := rfl
  fileCount := rfl
  validBlocks := rfl
  blocksize := rfl

end Frame

/-! ## The shape of the tree -/

/-- What a dentry is to the tree. -/
structure Shape where
  name : Name
  parent : Option ℕ
  isdir : Bool
  deleted : Bool
  childList : List (Name × ℕ)
  linkCount : ℤ

def Dentry.shape (d : Dentry) : Shape where
  name := d.name
  parent := d.parent
  isdir := d.isdir
  deleted := d.deleted
  childList := d.childList
  linkCount := d.linkCount

/-- The tree is the same, up to structures that had left it. -/
structure SameTree (s t : LtfsIndex) : Prop where
  shape : ∀ d, (t.dentry d).shape = (s.dentry d).shape
  freed : ∀ d, (t.dentry d).freed = (s.dentry d).freed ∨
    (s.dentry d).deleted = true
  next : t.next = s.next

namespace SameTree

section Fields

variable (h : SameTree s t) (d : ℕ)

include h

theorem name : (t.dentry d).name = (s.dentry d).name :=
  congrArg Shape.name (h.shape d)

theorem parent : (t.dentry d).parent = (s.dentry d).parent :=
  congrArg Shape.parent (h.shape d)

theorem isdir : (t.dentry d).isdir = (s.dentry d).isdir :=
  congrArg Shape.isdir (h.shape d)

theorem deleted : (t.dentry d).deleted = (s.dentry d).deleted :=
  congrArg Shape.deleted (h.shape d)

theorem childList : (t.dentry d).childList = (s.dentry d).childList :=
  congrArg Shape.childList (h.shape d)

theorem linkCount : (t.dentry d).linkCount = (s.dentry d).linkCount :=
  congrArg Shape.linkCount (h.shape d)

end Fields

theorem refl (s : LtfsIndex) : SameTree s s := ⟨fun _ => rfl, fun _ => .inl rfl, rfl⟩

theorem trans (hst : SameTree s t) (htu : SameTree t u) : SameTree s u where
  shape := fun d => (htu.shape d).trans (hst.shape d)
  freed := fun d => by
    cases htu.freed d with
    | inl hfreed => rw [hfreed]; exact hst.freed d
    | inr hdeleted => exact .inr ((hst.deleted d).symm.trans hdeleted)
  next := htu.next.trans hst.next

theorem of_dentry (hdentry : t.dentry = s.dentry) (hnext : t.next = s.next) :
    SameTree s t where
  shape := fun d => by rw [hdentry]
  freed := fun d => by rw [hdentry]; exact .inl rfl
  next := hnext

/-- A change to one dentry that does not concern the tree. -/
theorem modify {f : Dentry → Dentry} (hshape : (f (s.dentry d)).shape = (s.dentry d).shape)
    (hfreed : (f (s.dentry d)).freed = (s.dentry d).freed) : SameTree s (s.modify d f) where
  shape := fun x => by
    rw [LtfsIndex.modify_dentry]
    split
    · next hx => rw [hx]; exact hshape
    · rfl
  freed := fun x => by
    rw [LtfsIndex.modify_dentry]
    split
    · next hx => rw [hx]; exact .inl hfreed
    · exact .inl rfl
  next := rfl

end SameTree

/-- The counters of the index, and what they count, are the same. -/
structure SameTotals (s t : LtfsIndex) : Prop where
  usedBlocks : ∀ d, (t.dentry d).usedBlocks = (s.dentry d).usedBlocks
  extentlist : ∀ d, (t.dentry d).extentlist = (s.dentry d).extentlist
  fileCount : t.fileCount = s.fileCount
  validBlocks : t.validBlocks = s.validBlocks

theorem SameTotals.of_dentry (hdentry : t.dentry = s.dentry)
    (hfiles : t.fileCount = s.fileCount) (hblocks : t.validBlocks = s.validBlocks) :
    SameTotals s t where
  usedBlocks := fun d => by rw [hdentry]
  extentlist := fun d => by rw [hdentry]
  fileCount := hfiles
  validBlocks := hblocks

theorem SameTotals.trans (hst : SameTotals s t) (htu : SameTotals t u) : SameTotals s u where
  usedBlocks := fun d => (htu.usedBlocks d).trans (hst.usedBlocks d)
  extentlist := fun d => (htu.extentlist d).trans (hst.extentlist d)
  fileCount := htu.fileCount.trans hst.fileCount
  validBlocks := htu.validBlocks.trans hst.validBlocks

theorem Frame.sameTree (h : Frame s t) : SameTree s t where
  shape := h.field Dentry.shape fun _ => rfl
  freed := h.freed
  next := h.next

theorem Frame.sameTotals (h : Frame s t) : SameTotals s t where
  usedBlocks := h.usedBlocks
  extentlist := h.extentlist
  fileCount := h.fileCount
  validBlocks := h.validBlocks

/-- `d` is the root or stands in some child list. -/
def Attached (s : LtfsIndex) (d : ℕ) : Prop :=
  d = root ∨ ∃ p n, (n, d) ∈ (s.dentry p).childList

/-- How child lists, parent pointers and marks fit together. -/
structure Tree (s : LtfsIndex) : Prop where
  root_isdir : (s.dentry root).isdir = true
  root_parent : (s.dentry root).parent = none
  root_deleted : (s.dentry root).deleted = false
  root_freed : (s.dentry root).freed = false
  entry_freed : ∀ {p n c}, (n, c) ∈ (s.dentry p).childList →
    (s.dentry c).freed = false
  entry_deleted : ∀ {p n c}, (n, c) ∈ (s.dentry p).childList →
    (s.dentry c).deleted = false
  entry_parent : ∀ {p n c}, (n, c) ∈ (s.dentry p).childList →
    (s.dentry c).parent = some p
  entry_name : ∀ {p n c}, (n, c) ∈ (s.dentry p).childList →
    (s.dentry c).name = n
  owner_isdir : ∀ {p}, (s.dentry p).childList ≠ [] → (s.dentry p).isdir = true
  owner_attached : ∀ {p}, (s.dentry p).childList ≠ [] → Attached s p
  nodup : ∀ p, ((s.dentry p).childList.map Prod.fst).Nodup
  gone_parent : ∀ {d}, (s.dentry d).deleted = true → (s.dentry d).parent = none
  ends : ∀ d, Ends s.parent d
  fresh_freed : ∀ {d}, s.next ≤ d → (s.dentry d).freed = true
  fresh_deleted : ∀ {d}, s.next ≤ d → (s.dentry d).deleted = false
  fresh_parent : ∀ {d}, s.next ≤ d → (s.dentry d).parent = none
  parent_lt : ∀ {d p}, (s.dentry d).parent = some p → p < s.next

namespace Tree

theorem attached_freed (hs : Tree s) (hd : Attached s d) : (s.dentry d).freed = false := by
  cases hd with
  | inl hroot => rw [hroot]; exact hs.root_freed
  | inr hentry =>
    obtain ⟨p, n, hmem⟩ := hentry
    exact hs.entry_freed hmem

theorem attached_deleted (hs : Tree s) (hd : Attached s d) : (s.dentry d).deleted = false := by
  cases hd with
  | inl hroot => rw [hroot]; exact hs.root_deleted
  | inr hentry =>
    obtain ⟨p, n, hmem⟩ := hentry
    exact hs.entry_deleted hmem

theorem attached_lt (hs : Tree s) (hd : Attached s d) : d < s.next := by
  by_contra hge
  have hfreed := hs.fresh_freed (not_lt.1 hge)
  rw [hs.attached_freed hd] at hfreed
  cases hfreed

theorem gone_childList (hs : Tree s) (hd : (s.dentry d).deleted = true) :
    (s.dentry d).childList = [] := by
  by_contra hne
  have halive := hs.attached_deleted (hs.owner_attached hne)
  rw [halive] at hd
  cases hd

theorem fresh_childList (hs : Tree s) (hd : s.next ≤ d) : (s.dentry d).childList = [] := by
  by_contra hne
  exact absurd (hs.attached_lt (hs.owner_attached hne)) (not_lt.2 hd)

theorem same (hs : Tree s) (h : SameTree s t) : Tree t where
  root_isdir := (h.isdir root).trans hs.root_isdir
  root_parent := (h.parent root).trans hs.root_parent
  root_deleted := (h.deleted root).trans hs.root_deleted
  root_freed := by
    cases h.freed root with
    | inl hfreed => exact hfreed.trans hs.root_freed
    | inr hdeleted => rw [hs.root_deleted] at hdeleted; cases hdeleted
  entry_freed := fun {p n c} hmem => by
    rw [h.childList] at hmem
    cases h.freed c with
    | inl hfreed => exact hfreed.trans (hs.entry_freed hmem)
    | inr hdeleted => rw [hs.entry_deleted hmem] at hdeleted; cases hdeleted
  entry_deleted := fun {p n c} hmem => by
    rw [h.childList] at hmem
    exact (h.deleted c).trans (hs.entry_deleted hmem)
  entry_parent := fun {p n c} hmem => by
    rw [h.childList] at hmem
    exact (h.parent c).trans (hs.entry_parent hmem)
  entry_name := fun {p n c} hmem => by
    rw [h.childList] at hmem
    exact (h.name c).trans (hs.entry_name hmem)
  owner_isdir := fun {p} hne => by
    rw [h.childList] at hne
    exact (h.isdir p).trans (hs.owner_isdir hne)
  owner_attached := fun {p} hne => by
    rw [h.childList] at hne
    cases hs.owner_attached hne with
    | inl hroot => exact .inl hroot
    | inr hentry =>
      obtain ⟨q, n, hmem⟩ := hentry
      exact .inr ⟨q, n, by rw [h.childList]; exact hmem⟩
  nodup := fun p => by rw [h.childList]; exact hs.nodup p
  gone_parent := fun {d} hd => by
    rw [h.deleted] at hd
    exact (h.parent d).trans (hs.gone_parent hd)
  ends := fun d => by
    have hsame : t.parent = s.parent := funext h.parent
    rw [hsame]
    exact hs.ends d
  fresh_freed := fun {d} hd => by
    rw [h.next] at hd
    cases h.freed d with
    | inl hfreed => exact hfreed.trans (hs.fresh_freed hd)
    | inr hdeleted => rw [hs.fresh_deleted hd] at hdeleted; cases hdeleted
  fresh_deleted := fun {d} hd => by
    rw [h.next] at hd
    exact (h.deleted d).trans (hs.fresh_deleted hd)
  fresh_parent := fun {d} hd => by
    rw [h.next] at hd
    exact (h.parent d).trans (hs.fresh_parent hd)
  parent_lt := fun {d p} hp => by
    rw [h.parent] at hp
    rw [h.next]
    exact hs.parent_lt hp

theorem frame (hs : Tree s) (h : Frame s t) : Tree t := hs.same h.sameTree

end Tree

theorem SameTree.attached (h : SameTree s t) (d : ℕ) : Attached t d ↔ Attached s d := by
  unfold Attached
  simp only [h.childList]

theorem Attached.frame (h : Frame s t) (hd : Attached s d) :
    Attached t d := (h.sameTree.attached d).2 hd

theorem Attached.of_frame (h : Frame s t) (hd : Attached t d) :
    Attached s d := (h.sameTree.attached d).1 hd

/-! ## Finding entries -/

namespace Dentry

variable {d : Dentry} {copied : Bool} {name : Name} {c : ℕ}

theorem mem_of_findKey (h : d.findKey name = some c) : (name, c) ∈ d.childList := by
  obtain ⟨⟨n, c'⟩, hfind, rfl⟩ := Option.map_eq_some_iff.1 h
  have hname : n = name := by simpa using List.find?_some hfind
  rw [← hname]
  exact List.mem_of_find?_eq_some hfind

theorem findKey_of_mem (hmem : (name, c) ∈ d.childList) : d.findKey name ≠ none := by
  intro hnone
  rw [findKey, Option.map_eq_none_iff, List.find?_eq_none] at hnone
  simpa using hnone _ hmem

theorem not_mem_of_findKey (h : d.findKey name = none) (c : ℕ) : (name, c) ∉ d.childList :=
  fun hmem => findKey_of_mem hmem h

theorem findCopied_eq_some :
    d.findCopied copied name = some c ↔ copied = true ∧ d.findKey name = some c := by
  cases copied <;> simp [findCopied]

/-- If the name is in the table, it is found. -/
def Sees (copied : Bool) (d : Dentry) (name : Name) : Prop :=
  copied = true ∨ d.findKey name = none

theorem Sees.findKey (h : d.Sees copied name) (hnone : d.findCopied copied name = none) :
    d.findKey name = none := by
  rcases h with rfl | hfree
  · exact hnone
  · exact hfree

theorem Sees.not_found (h : d.Sees copied name) (hcopied : copied = false) (c : ℕ) :
    d.findKey name ≠ some c := by
  intro hc
  rcases h with htrue | hnone
  · rw [hcopied] at htrue
    cases htrue
  · rw [hc] at hnone
    cases hnone

theorem mem_of_findCopied (h : d.findCopied copied name = some c) : (name, c) ∈ d.childList :=
  mem_of_findKey (findCopied_eq_some.1 h).2

end Dentry

/-! ## Counting references -/

/-- The reference the tree holds. -/
def Dentry.tree (d : Dentry) : ℤ := if d.deleted then 0 else 1

/-- Every reference is accounted for: the one of the tree, those of `base`, and
those in `refs`.  Nothing is left in memory without a reference, unless the cache
has still to write it. -/
structure Counted (base : ℕ → ℕ) (refs : List ℕ) (s : LtfsIndex) : Prop where
  count : ∀ d, (s.dentry d).freed = false →
    (s.dentry d).numhandles = base d + (s.dentry d).tree + refs.count d
  live : ∀ d ∈ refs, (s.dentry d).freed = false
  kept : ∀ d, 0 < base d → (s.dentry d).freed = false
  idle : ∀ d, (s.dentry d).freed = false → (s.dentry d).numhandles = 0 →
    (s.dentry d).outOfSync = true

namespace Counted

theorem perm {refs' : List ℕ} (h : Counted base refs s)
    (hperm : refs.Perm refs') : Counted base refs' s where
  count := fun x hx => by rw [← hperm.count_eq]; exact h.count x hx
  live := fun x hx => h.live x (hperm.mem_iff.2 hx)
  kept := h.kept
  idle := h.idle

theorem of_dentry (h : Counted base refs s) (hdentry : t.dentry = s.dentry) :
    Counted base refs t := by
  refine ⟨?_, ?_, ?_, ?_⟩ <;> rw [hdentry]
  · exact h.count
  · exact h.live
  · exact h.kept
  · exact h.idle

theorem numhandles_nonneg (h : Counted base refs s) (hd : (s.dentry d).freed = false) :
    0 ≤ (s.dentry d).numhandles := by
  rw [h.count d hd, Dentry.tree]
  split <;> omega

theorem grab (h : Counted base refs s) (hd : (s.dentry d).freed = false) :
    Counted base (d :: refs) (s.modify d (Dentry.handle 1)) where
  count := fun x hx => by
    by_cases hxd : x = d
    · subst hxd
      rw [LtfsIndex.modify_dentry_self]
      show (s.dentry x).numhandles + 1 = base x + (s.dentry x).tree + _
      rw [h.count x hd, List.count_cons_self]
      push_cast
      ring
    · rw [LtfsIndex.modify_dentry_of_ne hxd] at hx ⊢
      rw [h.count x hx, List.count_cons_of_ne (Ne.symm hxd)]
  live := fun x hx => by
    have hfreed : (s.dentry x).freed = false := by
      rcases List.mem_cons.1 hx with rfl | hmem
      · exact hd
      · exact h.live x hmem
    rw [LtfsIndex.modify_dentry]
    split
    · next hxd => rw [hxd] at hfreed; exact hfreed
    · exact hfreed
  kept := fun x hx => by
    rw [LtfsIndex.modify_dentry]
    split
    · exact hd
    · exact h.kept x hx
  idle := fun x hx hzero => by
    by_cases hxd : x = d
    · subst hxd
      rw [LtfsIndex.modify_dentry_self] at hzero
      have hnonneg := h.numhandles_nonneg hd
      change (s.dentry x).numhandles + 1 = 0 at hzero
      omega
    · rw [LtfsIndex.modify_dentry_of_ne hxd] at hx hzero ⊢
      exact h.idle x hx hzero

/-- A reference can go where another is left. -/
theorem drop (h : Counted base (d :: refs) s)
    (hleft : (s.dentry d).deleted = false ∨ d ∈ refs ∨
      (s.dentry d).numhandles ≠ 1 ∨ (s.dentry d).outOfSync = true) :
    Counted base refs (s.modify d (Dentry.handle (-1))) where
  count := fun x hx => by
    by_cases hxd : x = d
    · subst hxd
      have hlive := h.live x List.mem_cons_self
      rw [LtfsIndex.modify_dentry_self]
      show (s.dentry x).numhandles + -1 = base x + (s.dentry x).tree + _
      rw [h.count x hlive, List.count_cons_self]
      push_cast
      ring
    · rw [LtfsIndex.modify_dentry_of_ne hxd] at hx ⊢
      rw [h.count x hx, List.count_cons_of_ne (Ne.symm hxd)]
  live := fun x hx => by
    have hfreed := h.live x (List.mem_cons_of_mem d hx)
    rw [LtfsIndex.modify_dentry]
    split
    · next hxd => rw [hxd] at hfreed; exact hfreed
    · exact hfreed
  kept := fun x hx => by
    have hfreed := h.kept x hx
    rw [LtfsIndex.modify_dentry]
    split
    · next hxd => rw [hxd] at hfreed; exact hfreed
    · exact hfreed
  idle := fun x hx hzero => by
    by_cases hxd : x = d
    · subst hxd
      rw [LtfsIndex.modify_dentry_self] at hzero ⊢
      change (s.dentry x).numhandles + -1 = 0 at hzero
      have hcount := h.count x (h.live x List.mem_cons_self)
      rw [List.count_cons_self, Dentry.tree] at hcount
      rcases hleft with halive | hmem | hone | hsync
      · rw [halive, if_neg Bool.false_ne_true] at hcount
        omega
      · have hpos := List.count_pos_iff.2 hmem
        split at hcount <;> omega
      · omega
      · exact hsync
    · rw [LtfsIndex.modify_dentry_of_ne hxd] at hx hzero ⊢
      exact h.idle x hx hzero

/-- With its last reference the structure goes. -/
theorem dropLast (h : Counted base (d :: refs) s) (hbase : base d = 0)
    (hrefs : d ∉ refs) :
    Counted base refs ((s.modify d (Dentry.handle (-1))).modify d Dentry.free) := by
  have hothers {x : ℕ} (hx : x ≠ d) :
      ((s.modify d (Dentry.handle (-1))).modify d Dentry.free).dentry x = s.dentry x := by
    rw [LtfsIndex.modify_dentry_of_ne hx, LtfsIndex.modify_dentry_of_ne hx]
  have hself : (((s.modify d (Dentry.handle (-1))).modify d Dentry.free).dentry d).freed =
      true := by
    rw [LtfsIndex.modify_dentry_self]
    rfl
  have hlive {x : ℕ} (hx : (((s.modify d (Dentry.handle (-1))).modify d
      Dentry.free).dentry x).freed = false) : x ≠ d := by
    rintro rfl
    rw [hself] at hx
    cases hx
  refine ⟨fun x hx => ?_, fun x hx => ?_, fun x hx => ?_, fun x hx hzero => ?_⟩
  · have hxd := hlive hx
    rw [hothers hxd] at hx ⊢
    rw [h.count x hx, List.count_cons_of_ne (Ne.symm hxd)]
  · have hxd : x ≠ d := fun heq => hrefs (heq ▸ hx)
    rw [hothers hxd]
    exact h.live x (List.mem_cons_of_mem d hx)
  · have hxd : x ≠ d := by
      rintro rfl
      rw [hbase] at hx
      exact lt_irrefl 0 hx
    rw [hothers hxd]
    exact h.kept x hx
  · have hxd := hlive hx
    rw [hothers hxd] at hx hzero ⊢
    exact h.idle x hx hzero

end Counted

/-- Without children and without a parent, disposing of a dentry is freeing it. -/
theorem fsDisposeDentry_leaf (fuel : ℕ) (hchildren : (s.dentry d).childList = [])
    (hparent : (s.dentry d).parent = none) :
    fsDisposeDentry (fuel + 1) d s = s.modify d Dentry.free := by
  simp only [fsDisposeDentry, hchildren, List.foldl_nil, hparent]

/-- What has left the tree holds nothing and hangs nowhere. -/
def Gone (s : LtfsIndex) : Prop :=
  ∀ d, (s.dentry d).deleted = true →
    (s.dentry d).childList = [] ∧ (s.dentry d).parent = none

theorem Tree.gone (hs : Tree s) : Gone s :=
  fun _ hd => ⟨hs.gone_childList hd, hs.gone_parent hd⟩

theorem Gone.frame (hs : Gone s) (h : Frame s t) : Gone t := by
  intro d hd
  rw [h.deleted] at hd
  rw [h.childList, h.parent]
  exact hs d hd

/-- What a release does: a reference less, and the structure freed if that was
the last one. -/
structure Releases (base : ℕ → ℕ) (refs : List ℕ) (s t : LtfsIndex) : Prop where
  frame : Frame s t
  counted : Counted base refs t

theorem fsReleaseDentry_spec (hs : Gone s) (hc : Counted base (d :: refs) s) :
    Releases base refs s (fsReleaseDentry d s) := by
  have hframe := Frame.handle s d (-1)
  have hhandles : ((s.modify d (Dentry.handle (-1))).dentry d).numhandles =
      (s.dentry d).numhandles + -1 := by
    rw [LtfsIndex.modify_dentry_self]
    rfl
  have hsync : ((s.modify d (Dentry.handle (-1))).dentry d).outOfSync =
      (s.dentry d).outOfSync := by
    rw [LtfsIndex.modify_dentry_self]
    rfl
  rw [fsReleaseDentry, hhandles, hsync]
  split
  · next hleft =>
    refine ⟨hframe, hc.drop (.inr (.inr ?_))⟩
    exact hleft.imp_left fun hne hone => hne (by rw [hone]; rfl)
  · next hlast =>
    -- No reference is left, not even that of the tree, so the dentry is a leaf.
    obtain ⟨hzero, _⟩ := not_or.1 hlast
    have hcount := hc.count d (hc.live d List.mem_cons_self)
    rw [List.count_cons_self] at hcount
    have htree : (s.dentry d).deleted = true := by
      by_contra halive
      rw [Dentry.tree, if_neg halive] at hcount
      omega
    rw [Dentry.tree, if_pos htree] at hcount
    have hgone : ((s.modify d (Dentry.handle (-1))).dentry d).deleted = true :=
      (hframe.deleted d).trans htree
    obtain ⟨hchildren, hparent⟩ := hs.frame hframe d hgone
    rw [fsDisposeDentry_leaf _ hchildren hparent]
    refine ⟨hframe.trans (Frame.free hgone), hc.dropLast (by omega) ?_⟩
    rw [← List.count_eq_zero]
    omega

/-! ## Predecessors -/

theorem predecessorWalk_iff (s : LtfsIndex) (d1 : ℕ) (fuel d : ℕ) :
    predecessorWalk s d1 fuel d = true ↔
      ∃ k, k < fuel ∧ climb s.parent k d = some d1 := by
  induction fuel generalizing d with
  | zero => simp [predecessorWalk]
  | succ fuel ih =>
    rw [predecessorWalk, Bool.or_eq_true, decide_eq_true_iff]
    constructor
    · rintro (rfl | hup)
      · exact ⟨0, Nat.succ_pos fuel, rfl⟩
      · cases hp : s.parent d with
        | none => rw [show (s.dentry d).parent = none from hp] at hup; cases hup
        | some p =>
          rw [show (s.dentry d).parent = some p from hp] at hup
          obtain ⟨k, hk, hclimb⟩ := (ih p).1 hup
          exact ⟨k + 1, Nat.succ_lt_succ hk, (climb_succ_some hp k).trans hclimb⟩
    · rintro ⟨k, hk, hclimb⟩
      cases k with
      | zero => exact .inl (Option.some.inj hclimb)
      | succ k =>
        refine .inr ?_
        cases hp : s.parent d with
        | none => rw [climb_succ_none hp] at hclimb; cases hclimb
        | some p =>
          rw [climb_succ_some hp] at hclimb
          rw [show (s.dentry d).parent = some p from hp]
          exact (ih p).2 ⟨k, Nat.lt_of_succ_lt_succ hk, hclimb⟩

/-- The bounded walk of the model finds every dentry above. -/
theorem fsIsPredecessor_iff (hs : Tree s) {d1 d2 : ℕ} (hd2 : d2 < s.next) :
    fsIsPredecessor s d1 d2 = true ↔ Above s.parent d1 d2 := by
  rw [fsIsPredecessor, predecessorWalk_iff]
  constructor
  · rintro ⟨k, _, hk⟩
    exact ⟨k, hk⟩
  · rintro ⟨k, hk⟩
    refine ⟨k, ?_, hk⟩
    by_contra hlong
    have hend := climb_eq_none_of_bounded hs.ends (fun _ _ hp => hs.parent_lt hp) hd2
    rw [climb_none_of_le hend (by omega)] at hk
    cases hk

/-! ## Lookups -/

/-- The path lookup without its references: the dentry that is found for a path. -/
def resolve (keys : Keys) (s : LtfsIndex) : List Name → ℕ → Option ℕ
  | [], d => some d
  | name :: rest, d =>
    if ltfsFilenameMax < pathnameStrlen name then none
    else ((s.dentry d).findCopied (keys rest.length) name).bind (resolve keys s rest)

theorem resolve_same (h : SameTree s t) (keys : Keys) (path : List Name) (d : ℕ) :
    resolve keys t path d = resolve keys s path d := by
  induction path generalizing d with
  | nil => rfl
  | cons name rest ih =>
    rw [resolve, resolve, Dentry.findCopied, Dentry.findCopied, Dentry.findKey,
      Dentry.findKey, h.childList]
    exact congrArg (fun f => ite _ none (Option.bind _ f)) (funext ih)

theorem resolve_frame (h : Frame s t) (keys : Keys) (path : List Name) (d : ℕ) :
    resolve keys t path d = resolve keys s path d :=
  resolve_same h.sameTree keys path d

/-- A lookup in one directory. -/
inductive LookedUp (base : ℕ → ℕ) (refs : List ℕ) (s : LtfsIndex) (copied : Bool)
    (dir : ℕ) (name : Name) : Except FsError (Option ℕ) × LtfsIndex → Prop
  | refused : ltfsFilenameMax < pathnameStrlen name →
      LookedUp base refs s copied dir name (.error .nameTooLong, s)
  | absent : ¬ ltfsFilenameMax < pathnameStrlen name →
      (s.dentry dir).findCopied copied name = none →
      LookedUp base refs s copied dir name (.ok none, s)
  | found (d : ℕ) (t : LtfsIndex) : ¬ ltfsFilenameMax < pathnameStrlen name →
      (s.dentry dir).findCopied copied name = some d → Frame s t →
      Counted base (d :: refs) t →
      LookedUp base refs s copied dir name (.ok (some d), t)

theorem fsDirectoryLookup_spec (hs : Tree s) (hc : Counted base refs s) (copied : Bool)
    (dir : ℕ) (name : Name) :
    LookedUp base refs s copied dir name (fsDirectoryLookup copied dir name s) := by
  rw [fsDirectoryLookup]
  split
  · next hlong => exact .refused hlong
  · next hlong =>
    cases hfind : (s.dentry dir).findCopied copied name with
    | none => exact .absent hlong hfind
    | some d =>
      have hfreed := hs.entry_freed (Dentry.mem_of_findCopied hfind)
      exact .found d _ hlong hfind (Frame.handle s d 1) (hc.grab hfreed)

/-- The outcome of a path lookup.  The reference to the last directory is kept
on request, unless the path is that of the start itself. -/
inductive Walked (base : ℕ → ℕ) (refs : List ℕ) (s : LtfsIndex) (keys : Keys)
    (path : List Name) (start : ℕ) (keep : Bool) : Except FsError ℕ × LtfsIndex → Prop
  | failed (e : FsError) (t : LtfsIndex) : resolve keys s path start = none →
      Frame s t → Counted base refs t →
      Walked base refs s keys path start keep (.error e, t)
  | found (d : ℕ) (t : LtfsIndex) : resolve keys s path start = some d →
      Attached s d → Frame s t → (keep = false ∨ path = []) →
      Counted base (d :: refs) t →
      Walked base refs s keys path start keep (.ok d, t)
  | kept (d p : ℕ) (t : LtfsIndex) : keep = true →
      resolve keys s path start = some d → (s.dentry d).parent = some p →
      Attached s d → Frame s t → Counted base (d :: p :: refs) t →
      Walked base refs s keys path start keep (.ok d, t)

theorem Tree.attached_entry {copied : Bool} {dir : ℕ} {name : Name}
    (hfind : (s.dentry dir).findCopied copied name = some d) : Attached s d :=
  .inr ⟨dir, name, Dentry.mem_of_findCopied hfind⟩

theorem resolve_cons {keys : Keys} {name : Name} {dir : ℕ} (rest : List Name)
    (hlong : ¬ ltfsFilenameMax < pathnameStrlen name)
    (hfind : (s.dentry dir).findCopied (keys rest.length) name = some d) :
    resolve keys s (name :: rest) dir = resolve keys s rest d := by
  rw [resolve, if_neg hlong, hfind]
  rfl

theorem Walked.mono {keys : Keys} {path path' : List Name} {start start' : ℕ} {keep : Bool}
    {r : Except FsError ℕ × LtfsIndex} (hframe : Frame s t)
    (hpath : resolve keys s path' start' = resolve keys s path start)
    (hne : path = [] → keep = false) (h : Walked base refs t keys path start keep r) :
    Walked base refs s keys path' start' keep r := by
  have hres := (hpath.trans (resolve_frame hframe keys path start).symm)
  cases h with
  | failed e u hnone hu hc =>
    exact .failed e u (hres.trans hnone) (hframe.trans hu) hc
  | found d u hsome hd hu hkeep hc =>
    refine .found d u (hres.trans hsome) (hd.of_frame hframe) (hframe.trans hu) (.inl ?_) hc
    cases hkeep with
    | inl hkeep => exact hkeep
    | inr hnil => exact hne hnil
  | kept d p u hkeep hsome hp hd hu hc =>
    exact .kept d p u hkeep (hres.trans hsome) ((hframe.parent d).symm.trans hp)
      (hd.of_frame hframe) (hframe.trans hu) hc

theorem pathWalk_spec (keys : Keys) (keep : Bool) (path : List Name) {start : ℕ}
    (hs : Tree s) (hstart : Attached s start) (hc : Counted base (start :: refs) s) :
    Walked base refs s keys path start keep (pathWalk keys keep path start s) := by
  induction path generalizing start s with
  | nil => exact .found start s rfl hstart (Frame.refl s) (.inr rfl) hc
  | cons name rest ih =>
    rw [pathWalk]
    have hlook := fsDirectoryLookup_spec hs hc (keys rest.length) start name
    generalize fsDirectoryLookup (keys rest.length) start name s = r at hlook ⊢
    cases hlook with
    | refused hlong =>
      have hrel := fsReleaseDentry_spec hs.gone hc
      refine .failed _ _ ?_ hrel.frame hrel.counted
      rw [resolve, if_pos hlong]
    | absent hlong hnone =>
      have hrel := fsReleaseDentry_spec hs.gone hc
      refine .failed _ _ ?_ hrel.frame hrel.counted
      rw [resolve, if_neg hlong, hnone]
      rfl
    | found d t hlong hfind hframe hct =>
      have hd : Attached s d := Tree.attached_entry hfind
      have hres := resolve_cons rest hlong hfind
      by_cases hlast : (rest = [] && keep) = true
      · -- The last step of a walk that keeps the directory.
        rw [Bool.and_eq_true, decide_eq_true_iff] at hlast
        obtain ⟨rfl, rfl⟩ := hlast
        exact .kept d start t rfl hres
          (hs.entry_parent (Dentry.mem_of_findCopied hfind)) hd hframe hct
      · simp only [hlast]
        have hdrop := (hct.perm (List.Perm.swap start d refs)).drop
          (.inl ((hframe.deleted start).trans (hs.attached_deleted hstart)))
        have hframe' := hframe.trans (Frame.handle t start (-1))
        have hnext := ih (hs.frame hframe') (hd.frame hframe') hdrop
        refine Walked.mono hframe' hres (fun hnil => ?_) hnext
        by_contra hkeep
        exact hlast (by rw [hnil]; simpa using hkeep)

theorem fsPathLookup_spec (keys : Keys) (keep : Bool) (path : Path) (hs : Tree s)
    (hc : Counted base refs s) :
    Walked base refs s keys path root keep (fsPathLookup keys keep path s) := by
  have hframe := Frame.handle s root 1
  have hwalk := pathWalk_spec keys keep path (hs.frame hframe) (.inl rfl)
    (hc.grab hs.root_freed)
  rw [fsPathLookup]
  cases path with
  | nil => exact .found root _ rfl (.inl rfl) hframe (.inr rfl) (hc.grab hs.root_freed)
  | cons name rest => exact hwalk.mono hframe rfl fun h => nomatch h

end AuroraLtfs.Fs
