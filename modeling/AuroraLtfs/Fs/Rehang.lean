import AuroraLtfs.Fs.Heap

/-!
# Hanging a dentry elsewhere

Creating, unlinking and renaming do one thing to the tree: one dentry is taken
out of the child list it stands in, if any, and hung at another place, if any.
What that does to the shape of the tree, to the links of the directories and to
the set of files is said here once.
-/

namespace AuroraLtfs.Fs

open AuroraLtfs.ParentChain

/-- A directory and a name in it; `none` is nowhere. -/
abbrev Place := Option (ℕ × Name)

/-- The entries a dentry at `place` has in the list of `x`. -/
def entriesAt (d : ℕ) (place : Place) (x : ℕ) : List (Name × ℕ) :=
  match place with
  | none => []
  | some (p, n) => if x = p then [(n, d)] else []

/-- The entries of a list that belong to other dentries. -/
def without (d : ℕ) (list : List (Name × ℕ)) : List (Name × ℕ) :=
  list.filter fun entry => entry.2 ≠ d

/-- `t` is `s` with `d` taken out of every child list and hung at `place`. -/
structure Rehung (s : LtfsIndex) (d : ℕ) (place : Place) (t : LtfsIndex) :
    Prop where
  lists : ∀ x, (t.dentry x).childList =
    without d (s.dentry x).childList ++ entriesAt d place x
  name : ∀ x, x ≠ d → (t.dentry x).name = (s.dentry x).name
  parent : ∀ x, x ≠ d → (t.dentry x).parent = (s.dentry x).parent
  isdir : ∀ x, x ≠ d → (t.dentry x).isdir = (s.dentry x).isdir
  deleted : ∀ x, x ≠ d → (t.dentry x).deleted = (s.dentry x).deleted
  freed : ∀ x, x ≠ d → (t.dentry x).freed = (s.dentry x).freed
  usedBlocks : ∀ x, x ≠ d → (t.dentry x).usedBlocks = (s.dentry x).usedBlocks

/-- The new place is one where `d` may hang. -/
structure Fits (s : LtfsIndex) (d : ℕ) (place : Place) (t : LtfsIndex) : Prop where
  ne_root : d ≠ root
  next_le : s.next ≤ t.next
  lt_next : d < t.next
  parent_ok : ∀ p, (t.dentry d).parent = some p →
    p < s.next ∧ ¬ Above s.parent d p
  gone : (t.dentry d).deleted = true → (t.dentry d).parent = none
  nowhere : place = none → (s.dentry d).childList = []
  isdir : (s.dentry d).childList ≠ [] → (t.dentry d).isdir = true
  attached : ∀ p n, place = some (p, n) → Attached s p
  inDir : ∀ p n, place = some (p, n) → (s.dentry p).isdir = true
  vacant : ∀ p n, place = some (p, n) →
    ∀ c, (n, c) ∈ (s.dentry p).childList → c = d
  parent : ∀ p n, place = some (p, n) → (t.dentry d).parent = some p
  name : ∀ p n, place = some (p, n) → (t.dentry d).name = n
  alive : ∀ p n, place = some (p, n) → (t.dentry d).deleted = false
  live : ∀ p n, place = some (p, n) → (t.dentry d).freed = false

variable {s t : LtfsIndex} {d c : ℕ} {place : Place} {list : List (Name × ℕ)}

theorem mem_without {n : Name} : (n, c) ∈ without d list ↔ (n, c) ∈ list ∧ c ≠ d := by
  simp [without]

theorem mem_entriesAt {x : ℕ} {n : Name} :
    (n, c) ∈ entriesAt d place x ↔ place = some (x, n) ∧ c = d := by
  cases place with
  | none => simp [entriesAt]
  | some at_ =>
    obtain ⟨p, m⟩ := at_
    rw [entriesAt, Option.some.injEq, Prod.mk.injEq]
    split
    · next hx =>
      rw [List.mem_singleton, Prod.mk.injEq]
      constructor
      · rintro ⟨rfl, rfl⟩
        exact ⟨⟨hx.symm, rfl⟩, rfl⟩
      · rintro ⟨⟨_, rfl⟩, rfl⟩
        exact ⟨rfl, rfl⟩
    · next hx =>
      constructor
      · intro hmem
        cases hmem
      · rintro ⟨⟨rfl, _⟩, _⟩
        exact absurd rfl hx

namespace Rehung

variable (h : Rehung s d place t)

include h

/-- Who stands in a list afterwards. -/
theorem mem_iff {x : ℕ} {n : Name} :
    (n, c) ∈ (t.dentry x).childList ↔
      ((n, c) ∈ (s.dentry x).childList ∧ c ≠ d) ∨ (place = some (x, n) ∧ c = d) := by
  rw [h.lists, List.mem_append, mem_without, mem_entriesAt]

theorem attached_of_ne {x : ℕ} (hx : x ≠ d) : Attached t x ↔ Attached s x := by
  unfold Attached
  constructor
  · rintro (hroot | ⟨p, n, hmem⟩)
    · exact .inl hroot
    · rcases h.mem_iff.1 hmem with ⟨hmem, _⟩ | ⟨_, hxd⟩
      · exact .inr ⟨p, n, hmem⟩
      · exact absurd hxd hx
  · rintro (hroot | ⟨p, n, hmem⟩)
    · exact .inl hroot
    · exact .inr ⟨p, n, h.mem_iff.2 (.inl ⟨hmem, hx⟩)⟩

theorem attached_self (hroot : d ≠ root) : Attached t d ↔ place.isSome = true := by
  constructor
  · rintro (hd | ⟨p, n, hmem⟩)
    · exact absurd hd hroot
    · rcases h.mem_iff.1 hmem with ⟨_, hne⟩ | ⟨hplace, _⟩
      · exact absurd rfl hne
      · rw [hplace]; rfl
  · intro hsome
    obtain ⟨⟨p, n⟩, hplace⟩ := Option.isSome_iff_exists.1 hsome
    exact .inr ⟨p, n, h.mem_iff.2 (.inr ⟨hplace, rfl⟩)⟩

theorem parent_eq : t.parent = Function.update s.parent d (t.dentry d).parent := by
  funext x
  by_cases hx : x = d
  · subst hx
    rw [Function.update_self]
    rfl
  · rw [Function.update_of_ne hx]
    exact h.parent x hx

variable (hs : Tree s) (hfit : Fits s d place t)

include hs hfit

theorem ends (x : ℕ) : Ends t.parent x := by
  rw [h.parent_eq]
  cases hp : (t.dentry d).parent with
  | none => exact Ends.update_none hs.ends x
  | some p => exact Ends.update_some hs.ends (hfit.parent_ok p hp).2 x

/-- A list that is not empty afterwards belongs to a directory of the tree. -/
theorem owner {p : ℕ} (hne : (t.dentry p).childList ≠ []) :
    (t.dentry p).isdir = true ∧ Attached t p := by
  obtain ⟨⟨n, c⟩, hmem⟩ := List.exists_mem_of_ne_nil _ hne
  by_cases hpd : p = d
  · subst hpd
    rcases h.mem_iff.1 hmem with ⟨hold, _⟩ | ⟨hplace, _⟩
    · have hchildren := List.ne_nil_of_mem hold
      refine ⟨hfit.isdir hchildren, (h.attached_self hfit.ne_root).2 ?_⟩
      cases place with
      | none => exact absurd (hfit.nowhere rfl) hchildren
      | some at_ => rfl
    · exact absurd (Above.refl p) (hfit.parent_ok p (hfit.parent p n hplace)).2
  · rw [h.isdir p hpd, h.attached_of_ne hpd]
    rcases h.mem_iff.1 hmem with ⟨hold, _⟩ | ⟨hplace, _⟩
    · have hchildren := List.ne_nil_of_mem hold
      exact ⟨hs.owner_isdir hchildren, hs.owner_attached hchildren⟩
    · exact ⟨hfit.inDir p n hplace, hfit.attached p n hplace⟩

theorem nodup (p : ℕ) : ((t.dentry p).childList.map Prod.fst).Nodup := by
  have hold : ((without d (s.dentry p).childList).map Prod.fst).Nodup :=
    (hs.nodup p).sublist (List.filter_sublist.map _)
  rw [h.lists, List.map_append, List.nodup_append]
  refine ⟨hold, ?_, ?_⟩
  · unfold entriesAt
    split
    · exact List.nodup_nil
    · split
      · exact List.nodup_singleton _
      · exact List.nodup_nil
  · intro n hn m hm hnm
    subst hnm
    obtain ⟨⟨n', c⟩, hc, rfl⟩ := List.mem_map.1 hn
    obtain ⟨⟨m', e⟩, he, hname⟩ := List.mem_map.1 hm
    obtain ⟨hmem, hcd⟩ := mem_without.1 hc
    obtain ⟨hplace, _⟩ := mem_entriesAt.1 he
    have hsame : m' = n' := hname
    subst hsame
    exact hcd (hfit.vacant p m' hplace c hmem)

theorem tree : Tree t where
  root_isdir := (h.isdir root hfit.ne_root.symm).trans hs.root_isdir
  root_parent := (h.parent root hfit.ne_root.symm).trans hs.root_parent
  root_deleted := (h.deleted root hfit.ne_root.symm).trans hs.root_deleted
  root_freed := (h.freed root hfit.ne_root.symm).trans hs.root_freed
  entry_freed := fun hmem => by
    rcases h.mem_iff.1 hmem with ⟨hold, hne⟩ | ⟨hplace, rfl⟩
    · exact (h.freed _ hne).trans (hs.entry_freed hold)
    · exact hfit.live _ _ hplace
  entry_deleted := fun hmem => by
    rcases h.mem_iff.1 hmem with ⟨hold, hne⟩ | ⟨hplace, rfl⟩
    · exact (h.deleted _ hne).trans (hs.entry_deleted hold)
    · exact hfit.alive _ _ hplace
  entry_parent := fun hmem => by
    rcases h.mem_iff.1 hmem with ⟨hold, hne⟩ | ⟨hplace, rfl⟩
    · exact (h.parent _ hne).trans (hs.entry_parent hold)
    · exact hfit.parent _ _ hplace
  entry_name := fun hmem => by
    rcases h.mem_iff.1 hmem with ⟨hold, hne⟩ | ⟨hplace, rfl⟩
    · exact (h.name _ hne).trans (hs.entry_name hold)
    · exact hfit.name _ _ hplace
  owner_isdir := fun hne => (h.owner hs hfit hne).1
  owner_attached := fun hne => (h.owner hs hfit hne).2
  nodup := h.nodup hs hfit
  gone_parent := fun {x} hx => by
    by_cases hxd : x = d
    · subst hxd; exact hfit.gone hx
    · rw [h.deleted x hxd] at hx
      exact (h.parent x hxd).trans (hs.gone_parent hx)
  ends := h.ends hs hfit
  fresh_freed := fun {x} hx => by
    have hxd : x ≠ d := (lt_of_lt_of_le hfit.lt_next hx).ne'
    exact (h.freed x hxd).trans (hs.fresh_freed (hfit.next_le.trans hx))
  fresh_deleted := fun {x} hx => by
    have hxd : x ≠ d := (lt_of_lt_of_le hfit.lt_next hx).ne'
    exact (h.deleted x hxd).trans (hs.fresh_deleted (hfit.next_le.trans hx))
  fresh_parent := fun {x} hx => by
    have hxd : x ≠ d := (lt_of_lt_of_le hfit.lt_next hx).ne'
    exact (h.parent x hxd).trans (hs.fresh_parent (hfit.next_le.trans hx))
  parent_lt := fun {x p} hp => by
    by_cases hxd : x = d
    · subst hxd
      exact lt_of_lt_of_le (hfit.parent_ok p hp).1 hfit.next_le
    · rw [h.parent x hxd] at hp
      exact lt_of_lt_of_le (hs.parent_lt hp) hfit.next_le

end Rehung

/-! ## Taking an entry out by its name -/

/-- In a list without repeated names, the entry of a name is the only one that
goes when the name is deleted. -/
theorem eraseP_eq_without {n : Name} (hnodup : (list.map Prod.fst).Nodup)
    (hmem : (n, d) ∈ list) (honly : ∀ m, (m, d) ∈ list → m = n) :
    list.eraseP (fun entry => entry.1 = n) = without d list := by
  induction list with
  | nil => cases hmem
  | cons head rest ih =>
    obtain ⟨m, c⟩ := head
    rw [List.map_cons, List.nodup_cons] at hnodup
    obtain ⟨hfresh, hrest⟩ := hnodup
    by_cases hm : m = n
    · subst hm
      have hcd : c = d := by
        rcases List.mem_cons.1 hmem with heq | htail
        · exact (congrArg Prod.snd heq).symm
        · exact absurd (List.mem_map_of_mem (f := Prod.fst) htail) hfresh
      subst hcd
      have hkeep : without c rest = rest := by
        rw [without, List.filter_eq_self]
        rintro ⟨k, e⟩ he
        rw [decide_eq_true_iff]
        rintro rfl
        have hk := honly k (List.mem_cons_of_mem _ he)
        subst hk
        exact hfresh (List.mem_map_of_mem (f := Prod.fst) he)
      rw [List.eraseP_cons_of_pos (by simp), without, List.filter_cons_of_neg (by simp)]
      exact hkeep.symm
    · have hcd : c ≠ d := by
        rintro rfl
        exact hm (honly m List.mem_cons_self)
      have htail : (n, d) ∈ rest := by
        rcases List.mem_cons.1 hmem with heq | htail
        · exact absurd (congrArg Prod.fst heq).symm hm
        · exact htail
      rw [List.eraseP_cons_of_neg (by simpa using hm), without,
        List.filter_cons_of_pos (by simpa using hcd)]
      rw [ih hrest htail fun k hk => honly k (List.mem_cons_of_mem _ hk)]
      rfl

theorem without_of_not_mem (hnot : ∀ n, (n, d) ∉ list) : without d list = list := by
  rw [without, List.filter_eq_self]
  rintro ⟨n, c⟩ hmem
  rw [decide_eq_true_iff]
  rintro rfl
  exact hnot n hmem

namespace Tree

/-- A dentry stands in the list of its parent only. -/
theorem not_mem_of_parent_ne (hs : Tree s) {p x : ℕ}
    (hp : (s.dentry d).parent = some p) (hx : x ≠ p) (n : Name) :
    (n, d) ∉ (s.dentry x).childList := by
  intro hmem
  have hpx := hs.entry_parent hmem
  rw [hp, Option.some.injEq] at hpx
  exact hx hpx.symm

/-- Deleting its name from the list of its parent takes a dentry out. -/
theorem delKey_childList (hs : Tree s) {p : ℕ} {n : Name}
    (hmem : (n, d) ∈ (s.dentry p).childList) :
    ((s.dentry p).delKey (s.dentry d).name).childList =
      without d (s.dentry p).childList := by
  rw [hs.entry_name hmem]
  refine eraseP_eq_without (hs.nodup p) hmem fun m hm => ?_
  exact (hs.entry_name hm).symm.trans (hs.entry_name hmem)

end Tree

end AuroraLtfs.Fs
