import AuroraLtfs.Lib.Glob
import AuroraLtfs.Lib.Loop

/-!
# Matching a name against a pattern

`_matches_name_criteria_caseless` walks along the pattern and the name, both as
sequences of grapheme clusters.  Where a cluster behind an asterisk matches, the
position is pushed onto a stack, to be taken up again one cluster further when the rest
does not match.  Pushing replaces all but the base of the stack.  What is lost that way
is covered by the position that is pushed, so the walk still finds a match whenever
there is one.
-/

namespace AuroraLtfs.Criteria

open Glob

/-- A grapheme cluster: its UTF-16 code units -/
abbrev Cluster := List UInt16

def asterisk : Cluster := [0x2A]

def questionMark : Cluster := [0x3F]

/-- What a cluster of a pattern stands for. -/
def toItem (c : Cluster) : Item Cluster :=
  if c = asterisk then .star else if c = questionMark then .any else .lit c

/-- The name is in the language of the pattern. -/
def InLanguage (criteria filename : List Cluster) : Prop :=
  Matches (criteria.map toItem) filename

/-- `filename_ustack_t`: the clusters at a position in the pattern and at one in the
name, and what follows them -/
structure Element where
  c : Cluster
  cr : List Cluster
  f : Cluster
  fi : List Cluster

/-- The position in the pattern and in the name, and the stack from its base on. -/
structure Walk where
  cr : List Cluster
  fi : List Cluster
  haveAsterisk : Bool
  stack : List Element

/-- `_push_ustack`: the new element follows the base. -/
def pushUstack (stack : List Element) (element : Element) : List Element :=
  match stack with
  | [] => [element]
  | base :: _ => [base, element]

/-- Skip asterisks. -/
def consumeAsterisks : List Cluster → Bool → List Cluster × Bool
  | [], haveAsterisk => ([], haveAsterisk)
  | c :: cr, haveAsterisk =>
    if c = asterisk then consumeAsterisks cr true else (c :: cr, haveAsterisk)

/-- Take the position up again that `_pop_ustack` returns, one cluster further. -/
def backtrack (s : Walk) : Bool ⊕ Walk :=
  match s.stack.getLast? with
  | none => .inl false
  | some element => .inr {
      cr := element.c :: element.cr
      fi := element.fi
      haveAsterisk := true
      stack := s.stack.dropLast }

/-- One round: the body of the inner loop, or what follows it. -/
def step (s : Walk) : Bool ⊕ Walk :=
  match s.cr with
  | [] => if s.fi = [] then .inl true else backtrack s
  | _ :: _ =>
    match consumeAsterisks s.cr s.haveAsterisk with
    | ([], _) => .inl true
    | (c :: cr, haveAsterisk) =>
      match s.fi with
      | [] => backtrack s
      | f :: fi =>
        if c = questionMark ∨ c = f then
          .inr {
            cr := cr
            fi := fi
            haveAsterisk := false
            stack := if haveAsterisk then
                pushUstack s.stack { c := c, cr := cr, f := f, fi := fi }
              else s.stack }
        else if haveAsterisk then
          .inr { s with cr := c :: cr, fi := fi, haveAsterisk := true }
        else backtrack s

/-- The result after at most `rounds` rounds. -/
def matchesNameCriteriaCaseless (rounds : ℕ) (criteria filename : List Cluster) :
    Option Bool :=
  if criteria = [] ∧ filename = [] then some true
  else if criteria = [] then some false
  else runLoop step rounds
    { cr := criteria, fi := filename, haveAsterisk := false, stack := [] }

/-! ## What is still possible -/

section Remaining

variable {c f : Cluster} {cr cr' fi : List Cluster} {haveAsterisk haveAsterisk' : Bool}

/-- The rest of the name matches the rest of the pattern. -/
def Remaining (cr fi : List Cluster) : Bool → Prop
  | true => Matches (.star :: cr.map toItem) fi
  | false => Matches (cr.map toItem) fi

/-- The rest matches from the next position of the element on. -/
def Element.Resumes (e : Element) : Prop :=
  Remaining (e.c :: e.cr) e.fi true

theorem toItem_ne_star (hc : c ≠ asterisk) : toItem c ≠ .star := by
  rw [toItem, if_neg hc]
  split_ifs <;> simp

theorem toItem_takes (hc : c ≠ asterisk) :
    (toItem c).Takes f ↔ c = questionMark ∨ c = f := by
  rw [toItem, if_neg hc, Item.Takes]
  split_ifs with hquestion <;> simp [hquestion]

theorem remaining_asterisk :
    Remaining (asterisk :: cr) fi haveAsterisk ↔ Remaining cr fi true := by
  cases haveAsterisk with
  | true => exact matches_star_star
  | false => exact Iff.rfl

theorem not_remaining_nil (hc : c ≠ asterisk) : ¬Remaining (c :: cr) [] haveAsterisk := by
  have hnot := matches_cons_nil (toItem_ne_star hc) (p := cr.map toItem)
  cases haveAsterisk with
  | true => exact fun h => hnot (matches_star_nil.1 h)
  | false => exact hnot

theorem remaining_cons (hc : c ≠ asterisk) :
    Remaining (c :: cr) (f :: fi) false ↔
      (c = questionMark ∨ c = f) ∧ Remaining cr fi false := by
  rw [← toItem_takes hc]
  exact matches_cons_cons (toItem_ne_star hc)

theorem remaining_star_cons :
    Remaining (c :: cr) (f :: fi) true ↔
      Remaining (c :: cr) (f :: fi) false ∨ Remaining (c :: cr) fi true :=
  matches_star_cons

/-- Skipping asterisks changes nothing. -/
theorem consumeAsterisks_remaining
    (h : consumeAsterisks cr haveAsterisk = (cr', haveAsterisk')) :
    Remaining cr fi haveAsterisk ↔ Remaining cr' fi haveAsterisk' := by
  induction cr generalizing haveAsterisk with
  | nil =>
    cases h
    exact Iff.rfl
  | cons c cr ih =>
    rw [consumeAsterisks] at h
    split_ifs at h with hc
    · subst hc
      rw [remaining_asterisk]
      exact ih h
    · cases h
      exact Iff.rfl

theorem consumeAsterisks_true (cr : List Cluster) :
    (consumeAsterisks cr true).2 = true := by
  induction cr with
  | nil => rfl
  | cons c cr ih =>
    rw [consumeAsterisks]
    split_ifs
    · exact ih
    · rfl

/-- A pattern that ends with the asterisks matches everything. -/
theorem consumeAsterisks_nil (hne : cr ≠ [])
    (h : consumeAsterisks cr haveAsterisk = ([], haveAsterisk')) :
    Remaining cr fi haveAsterisk := by
  cases cr with
  | nil => exact absurd rfl hne
  | cons c cr =>
    rw [consumeAsterisks] at h
    split_ifs at h with hc
    · obtain rfl : true = haveAsterisk' := by
        rw [← consumeAsterisks_true cr, h]
      rw [hc, remaining_asterisk, consumeAsterisks_remaining h]
      exact matches_star_end
    · cases h

theorem consumeAsterisks_cons
    (h : consumeAsterisks cr haveAsterisk = (c :: cr', haveAsterisk')) : c ≠ asterisk := by
  induction cr generalizing haveAsterisk with
  | nil => cases h
  | cons d cr ih =>
    rw [consumeAsterisks] at h
    split_ifs at h with hd
    · exact ih h
    · cases h
      exact hd

/-- What an element on the stack covers.  Behind an asterisk, everything that can be
reached from the element can be reached from here.  Before one, the clusters of the
pattern between the element and here have been taken one by one. -/
def Covers (e : Element) (cr fi : List Cluster) : Bool → Prop
  | true => e.Resumes → Remaining cr fi true
  | false => ∃ taken consumed, asterisk ∉ e.c :: taken ∧ e.cr = taken ++ cr ∧
      e.fi = consumed ++ fi ∧ consumed.length = taken.length

theorem star_notMem_map {taken : List Cluster} (h : asterisk ∉ taken) :
    .star ∉ taken.map toItem := by
  intro hmem
  obtain ⟨c, hc, hstar⟩ := List.mem_map.1 hmem
  refine toItem_ne_star ?_ hstar
  rintro rfl
  exact h hc

/-- The first asterisk behind an element covers it. -/
theorem Covers.asterisk {e : Element} (h : Covers e (asterisk :: cr) fi haveAsterisk) :
    Covers e cr fi true := by
  intro hresumes
  cases haveAsterisk with
  | true => exact remaining_asterisk.1 (h hresumes)
  | false =>
    obtain ⟨taken, consumed, hstar, hcr, hfi, hlength⟩ := h
    rw [Element.Resumes, hcr, hfi, Remaining, ← List.cons_append, List.map_append]
      at hresumes
    refine matches_later_star (star_notMem_map hstar) (v := consumed)
      (p := cr.map toItem) ?_ hresumes
    simp only [List.length_map, List.length_cons]
    omega

theorem Covers.consume {e : Element} (h : Covers e cr fi haveAsterisk)
    (hconsume : consumeAsterisks cr haveAsterisk = (cr', haveAsterisk')) :
    Covers e cr' fi haveAsterisk' := by
  induction cr generalizing haveAsterisk with
  | nil =>
    cases hconsume
    exact h
  | cons c cr ih =>
    rw [consumeAsterisks] at hconsume
    split_ifs at hconsume with hc
    · subst hc
      exact ih h.asterisk hconsume
    · cases hconsume
      exact h

/-- An element covers the position right behind it. -/
theorem covers_next (hc : c ≠ asterisk) :
    Covers { c := c, cr := cr, f := f, fi := fi } cr fi false :=
  ⟨[], [], by simpa using hc.symm, rfl, rfl, rfl⟩

theorem Covers.next {e : Element} (h : Covers e (c :: cr) (f :: fi) false)
    (hc : c ≠ Criteria.asterisk) : Covers e cr fi false := by
  obtain ⟨taken, consumed, hstar, hcr, hfi, hlength⟩ := h
  refine ⟨taken ++ [c], consumed ++ [f], ?_, by simp [hcr], by simp [hfi],
    by simp [hlength]⟩
  rw [← List.cons_append, List.mem_append, not_or]
  exact ⟨hstar, by simpa using hc.symm⟩

end Remaining

/-! ## The invariant of the walk -/

/-- Some way to match the name is left. -/
def Walk.Possible (s : Walk) : Prop :=
  Remaining s.cr s.fi s.haveAsterisk ∨ ∃ e ∈ s.stack, e.Resumes

/-- The elements on the stack lie before one another and before the position, and the
upper one is covered when it is lost. -/
def Walk.Stacked (s : Walk) : Prop :=
  match s.stack with
  | [] => True
  | [base] => s.fi.length ≤ base.fi.length
  | [base, top] => s.fi.length ≤ top.fi.length ∧ top.fi.length < base.fi.length ∧
      Covers top s.cr s.fi s.haveAsterisk
  | _ => False

/-- What holds before every round. -/
structure Walk.Inv (criteria filename : List Cluster) (s : Walk) : Prop where
  possible : InLanguage criteria filename ↔ s.Possible
  stacked : s.Stacked
  pending : s.haveAsterisk = true → s.cr ≠ []

/-- How far the walk still has to go: the base of the stack, the element above it and
the position each have so much of the name left, the position counting for elements
that are missing. -/
def Walk.left (s : Walk) : ℕ ×ₗ ℕ ×ₗ ℕ :=
  match s.stack with
  | [] => toLex (s.fi.length, toLex (s.fi.length, s.fi.length))
  | [base] => toLex (base.fi.length + 1, toLex (s.fi.length, s.fi.length))
  | base :: top :: _ =>
    toLex (base.fi.length + 1, toLex (top.fi.length + 1, s.fi.length))

theorem toLex_lt_iff {a b c a' b' c' : ℕ} :
    toLex (a, toLex (b, c)) < toLex (a', toLex (b', c')) ↔
      a < a' ∨ a = a' ∧ (b < b' ∨ b = b' ∧ c < c') := by
  rw [Prod.Lex.toLex_lt_toLex, Prod.Lex.toLex_lt_toLex]

section Steps

variable {criteria filename : List Cluster} {s s' : Walk}

/-- A round ends with the right answer, or keeps the invariant and brings the walk
nearer to its end. -/
def Walk.Sound (criteria filename : List Cluster) (s : Walk) : Bool ⊕ Walk → Prop
  | .inl b => b = true ↔ InLanguage criteria filename
  | .inr s' => s'.Inv criteria filename ∧ s'.left < s.left

/-- Taking up a position again when there is no way on from here. -/
theorem Walk.Inv.backtrack (h : s.Inv criteria filename)
    (hnot : ¬Remaining s.cr s.fi s.haveAsterisk) :
    s.Sound criteria filename (backtrack s) := by
  obtain ⟨hpossible, hstacked, -⟩ := h
  obtain ⟨cr, fi, haveAsterisk, stack⟩ := s
  dsimp only at hnot
  match stack, hstacked with
  | [], _ =>
    have hfalse : false = true ↔ InLanguage criteria filename := by
      simp [hpossible, Walk.Possible, hnot]
    exact hfalse
  | [base], _ =>
    refine ⟨⟨?_, trivial, nofun⟩, ?_⟩
    · rw [hpossible]
      simp [Walk.Possible, hnot, Element.Resumes]
    · simp only [Walk.left, List.dropLast_singleton, toLex_lt_iff, List.getLast_singleton]
      omega
  | [base, top], ⟨_, htop, _⟩ =>
    have hnext : Walk.Sound criteria filename ⟨cr, fi, haveAsterisk, [base, top]⟩
        (.inr ⟨top.c :: top.cr, top.fi, true, [base]⟩) := by
      refine ⟨⟨?_, htop.le, nofun⟩, ?_⟩
      · rw [hpossible]
        simp [Walk.Possible, hnot, Element.Resumes, or_comm]
      · simp only [Walk.left, toLex_lt_iff, true_and]
        omega
    exact hnext

/-- The position moves on without a new element. -/
theorem Walk.Inv.advance (h : s.Inv criteria filename) {cr fi : List Cluster}
    {haveAsterisk : Bool}
    (hremaining : Remaining s.cr s.fi s.haveAsterisk ↔ Remaining cr fi haveAsterisk)
    (hlength : fi.length < s.fi.length)
    (hcovers : ∀ e, Covers e s.cr s.fi s.haveAsterisk → Covers e cr fi haveAsterisk)
    (hpending : haveAsterisk = true → cr ≠ []) :
    s.Sound criteria filename (.inr ⟨cr, fi, haveAsterisk, s.stack⟩) := by
  obtain ⟨hpossible, hstacked, -⟩ := h
  obtain ⟨cr₀, fi₀, haveAsterisk₀, stack⟩ := s
  dsimp only at hremaining hlength hcovers
  refine ⟨⟨?_, ?_, hpending⟩, ?_⟩
  · rw [hpossible, Walk.Possible, Walk.Possible, hremaining]
  · match stack, hstacked with
    | [], _ => trivial
    | [base], hstacked => exact hlength.le.trans hstacked
    | [base, top], ⟨hfi, htop, hcover⟩ =>
      exact ⟨hlength.le.trans hfi, htop, hcovers top hcover⟩
  · match stack, hstacked with
    | [], _ =>
      simp only [Walk.left, toLex_lt_iff]
      omega
    | [base], _ =>
      simp only [Walk.left, toLex_lt_iff, true_and]
      omega
    | [base, top], _ =>
      simp only [Walk.left, toLex_lt_iff, true_and]
      omega

/-- A position behind an asterisk is pushed.  The element that is lost is covered. -/
theorem Walk.Inv.push {c f : Cluster} {cr fi : List Cluster}
    (h : s.Inv criteria filename) (hfi : s.fi = f :: fi)
    (hconsume : consumeAsterisks s.cr s.haveAsterisk = (c :: cr, true))
    (htakes : c = questionMark ∨ c = f) :
    s.Sound criteria filename
      (.inr ⟨cr, fi, false, pushUstack s.stack ⟨c, cr, f, fi⟩⟩) := by
  have hc := consumeAsterisks_cons hconsume
  obtain ⟨hpossible, hstacked, -⟩ := h
  obtain ⟨cr₀, fi₀, haveAsterisk, stack⟩ := s
  obtain rfl : fi₀ = f :: fi := hfi
  have hremaining : Remaining cr₀ (f :: fi) haveAsterisk ↔
      Remaining cr fi false ∨ Remaining (c :: cr) fi true := by
    rw [consumeAsterisks_remaining hconsume, remaining_star_cons, remaining_cons hc]
    simp [htakes]
  match stack, hstacked with
  | [], _ =>
    refine ⟨⟨?_, le_rfl, nofun⟩, ?_⟩
    · rw [hpossible]
      simp [Walk.Possible, hremaining, pushUstack, Element.Resumes]
    · simp [Walk.left, pushUstack, toLex_lt_iff]
  | [base], hstacked =>
    refine ⟨⟨?_, ⟨le_rfl, hstacked, covers_next hc⟩, nofun⟩, ?_⟩
    · rw [hpossible]
      simp only [Walk.Possible, hremaining, pushUstack, List.mem_cons,
        List.not_mem_nil, or_false, exists_eq_or_imp, exists_eq_left,
        Element.Resumes]
      tauto
    · simp [Walk.left, pushUstack, toLex_lt_iff]
  | [base, top], ⟨hle, htop, hcover⟩ =>
    have hlost : top.Resumes → Remaining cr₀ (f :: fi) haveAsterisk := by
      intro hresumes
      exact (consumeAsterisks_remaining hconsume).2 (hcover.consume hconsume hresumes)
    refine ⟨⟨?_, ⟨le_rfl, lt_of_le_of_lt (Nat.le_of_succ_le hle) htop,
      covers_next hc⟩, nofun⟩, ?_⟩
    · rw [hpossible]
      rw [hremaining, Element.Resumes] at hlost
      simp only [Walk.Possible, hremaining, pushUstack, List.mem_cons,
        List.not_mem_nil, or_false, exists_eq_or_imp, exists_eq_left,
        Element.Resumes]
      tauto
    · simp only [List.length_cons] at hle
      simp only [Walk.left, pushUstack, toLex_lt_iff, true_and, List.length_cons]
      omega

/-- A round that looks at a cluster of the name. -/
theorem Walk.Inv.take {c f : Cluster} {cr fi : List Cluster} {haveAsterisk : Bool}
    (h : s.Inv criteria filename) (hfi : s.fi = f :: fi)
    (hconsume : consumeAsterisks s.cr s.haveAsterisk = (c :: cr, haveAsterisk)) :
    s.Sound criteria filename
      (if c = questionMark ∨ c = f then
        .inr ⟨cr, fi, false,
          if haveAsterisk then pushUstack s.stack ⟨c, cr, f, fi⟩ else s.stack⟩
      else if haveAsterisk then .inr { s with cr := c :: cr, fi := fi, haveAsterisk := true }
      else Criteria.backtrack s) := by
  have hc := consumeAsterisks_cons hconsume
  have hremaining : Remaining s.cr s.fi s.haveAsterisk ↔
      Remaining (c :: cr) (f :: fi) haveAsterisk := by
    rw [consumeAsterisks_remaining hconsume, hfi]
  have hlength : fi.length < s.fi.length := by simp [hfi]
  have hcovers : ∀ e, Covers e s.cr s.fi s.haveAsterisk →
      Covers e (c :: cr) (f :: fi) haveAsterisk := fun e he => by
    rw [← hfi]
    exact he.consume hconsume
  split_ifs with htakes hasterisk hasterisk
  · subst hasterisk
    exact h.push hfi hconsume htakes
  · obtain rfl : haveAsterisk = false := by simpa using hasterisk
    refine h.advance ?_ hlength (fun e he => (hcovers e he).next hc) nofun
    rw [hremaining, remaining_cons hc]
    simp [htakes]
  · -- the asterisk takes the cluster
    subst hasterisk
    have hskip : Remaining (c :: cr) (f :: fi) true ↔ Remaining (c :: cr) fi true := by
      rw [remaining_star_cons, remaining_cons hc]
      simp [htakes]
    exact h.advance (hremaining.trans hskip) hlength
      (fun e he hresumes => hskip.1 (hcovers e he hresumes)) nofun
  · obtain rfl : haveAsterisk = false := by simpa using hasterisk
    refine h.backtrack ?_
    rw [hremaining, remaining_cons hc]
    simp [htakes]

/-- One round of the walk. -/
theorem Walk.Inv.step (h : s.Inv criteria filename) :
    s.Sound criteria filename (step s) := by
  rw [Criteria.step]
  cases hcr : s.cr with
  | nil =>
    have hfalse : s.haveAsterisk = false :=
      Bool.eq_false_iff.2 fun htrue => h.pending htrue hcr
    have hremaining : Remaining s.cr s.fi s.haveAsterisk ↔ s.fi = [] := by
      rw [hcr, hfalse]
      exact Iff.rfl
    dsimp only
    split_ifs with hfi
    · have hyes : true = true ↔ InLanguage criteria filename := by
        simp [h.possible, Walk.Possible, hremaining.2 hfi]
      exact hyes
    · exact h.backtrack fun hnot => hfi (hremaining.1 hnot)
  | cons c₀ cr₀ =>
    obtain ⟨⟨cr, haveAsterisk⟩, hconsume⟩ :
        ∃ r, consumeAsterisks (c₀ :: cr₀) s.haveAsterisk = r := ⟨_, rfl⟩
    dsimp only
    rw [hconsume]
    rw [← hcr] at hconsume
    cases cr with
    | nil =>
      have hall : Remaining s.cr s.fi s.haveAsterisk :=
        consumeAsterisks_nil (by simp [hcr]) hconsume
      have hyes : true = true ↔ InLanguage criteria filename := by
        simp [h.possible, Walk.Possible, hall]
      exact hyes
    | cons c cr =>
      cases hfi : s.fi with
      | nil =>
        refine h.backtrack ?_
        rw [consumeAsterisks_remaining hconsume, hfi]
        exact not_remaining_nil (consumeAsterisks_cons hconsume)
      | cons f fi => exact h.take hfi hconsume

end Steps

/-- `_matches_name_criteria_caseless` ends, and accepts exactly the names in the
language of the pattern. -/
theorem matchesNameCriteriaCaseless_iff (criteria filename : List Cluster) :
    ∃ matched n, (matched = true ↔ InLanguage criteria filename) ∧
      ∀ rounds, n ≤ rounds →
        matchesNameCriteriaCaseless rounds criteria filename = some matched := by
  by_cases hempty : criteria = []
  · subst hempty
    refine ⟨decide (filename = []), 0, by simp [InLanguage, Matches], fun rounds _ => ?_⟩
    by_cases hname : filename = [] <;> simp [matchesNameCriteriaCaseless, hname]
  have hdone : ∀ (s : Walk) (b : Bool), s.Inv criteria filename → step s = .inl b →
      (b = true ↔ InLanguage criteria filename) := by
    intro s b h hstep
    have hsound := h.step
    rwa [hstep] at hsound
  have hnext : ∀ s s' : Walk, s.Inv criteria filename → step s = .inr s' →
      s'.Inv criteria filename ∧ s'.left < s.left := by
    intro s s' h hstep
    have hsound := h.step
    rwa [hstep] at hsound
  have hstart : Walk.Inv criteria filename ⟨criteria, filename, false, []⟩ := by
    refine ⟨?_, trivial, fun hpending => ?_⟩
    · simp [Walk.Possible, Remaining, InLanguage]
    · cases hpending
  obtain ⟨matched, n, hmatched, hrun⟩ :=
    runLoop_terminates (InvImage.wf Walk.left wellFounded_lt) hdone hnext _ hstart
  refine ⟨matched, n, hmatched, fun rounds hrounds => ?_⟩
  rw [matchesNameCriteriaCaseless, if_neg (by simp [hempty]), if_neg hempty]
  exact hrun rounds hrounds

end AuroraLtfs.Criteria
