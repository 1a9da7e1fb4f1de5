import Mathlib

/-!
# Documents written element by element

A text writer opens elements, writes items into them and closes the innermost one.
The document is the list of what it has written.  A `Cursor` runs along the list and
knows which elements are open; `Everywhere` states a property of every place in the
document.  A script of calls is performed up to the first one that fails.
-/

namespace AuroraLtfs

variable {α β γ δ φ : Type*}

/-- A call of a text writer with tags `α` and items `β`.  `check` stands for a step
that may fail and writes nothing. -/
inductive WriterCall (α β : Type*) where
  | start (tag : α)
  | stop
  | leaf (item : β)
  | check
  deriving DecidableEq, Repr

inductive DocEvent (α β : Type*) where
  | opened (tag : α)
  | closed
  | wrote (item : β)
  deriving DecidableEq, Repr

/-- A place in a document: the open elements, innermost first, and the element that
was closed just before. -/
structure Cursor (α : Type*) where
  stack : List α
  justClosed : Option α
  deriving DecidableEq, Repr

namespace Cursor

def start : Cursor α := ⟨[], none⟩

def step (c : Cursor α) : DocEvent α β → Cursor α
  | .opened tag => ⟨tag :: c.stack, none⟩
  | .closed => ⟨c.stack.tail, c.stack.head?⟩
  | .wrote _ => ⟨c.stack, none⟩

def run (c : Cursor α) (events : List (DocEvent α β)) : Cursor α := events.foldl step c

variable (c : Cursor α)

@[simp]
theorem run_nil : c.run ([] : List (DocEvent α β)) = c := rfl

@[simp]
theorem run_cons (e : DocEvent α β) (es : List (DocEvent α β)) :
    c.run (e :: es) = (c.step e).run es := rfl

@[simp]
theorem run_append (es fs : List (DocEvent α β)) : c.run (es ++ fs) = (c.run es).run fs :=
  List.foldl_append

theorem run_closed (n : ℕ) :
    (c.run (List.replicate n (.closed : DocEvent α β))).stack = c.stack.drop n := by
  induction n generalizing c with
  | zero => rfl
  | succ n ih => simp [List.replicate_succ, ih, step]

end Cursor

/-- `P` holds of every event at the place where it stands. -/
def Everywhere (P : Cursor α → DocEvent α β → Prop) :
    Cursor α → List (DocEvent α β) → Prop
  | _, [] => True
  | c, e :: es => P c e ∧ Everywhere P (c.step e) es

section Everywhere

variable {P Q : Cursor α → DocEvent α β → Prop}

@[simp]
theorem everywhere_nil (c : Cursor α) : Everywhere P c [] := trivial

@[simp]
theorem everywhere_cons (c : Cursor α) (e : DocEvent α β) (es : List (DocEvent α β)) :
    Everywhere P c (e :: es) ↔ P c e ∧ Everywhere P (c.step e) es :=
  Iff.rfl

@[simp]
theorem everywhere_append (c : Cursor α) (es fs : List (DocEvent α β)) :
    Everywhere P c (es ++ fs) ↔ Everywhere P c es ∧ Everywhere P (c.run es) fs := by
  induction es generalizing c with
  | nil => simp
  | cons e es ih => simp [ih, and_assoc]

theorem Everywhere.mono (hPQ : ∀ c e, P c e → Q c e) {c : Cursor α}
    {es : List (DocEvent α β)} (h : Everywhere P c es) : Everywhere Q c es := by
  induction es generalizing c with
  | nil => trivial
  | cons e es ih => exact ⟨hPQ c e h.1, ih h.2⟩

/-- A property that every event of a list has wherever it stands. -/
theorem everywhere_of_forall {es : List (DocEvent α β)} (h : ∀ e ∈ es, ∀ c, P c e)
    (c : Cursor α) : Everywhere P c es := by
  induction es generalizing c with
  | nil => trivial
  | cons e es ih => exact ⟨h e (by simp) c, ih (fun e he => h e (by simp [he])) _⟩

end Everywhere

/-! ## Scripts -/

namespace WriterCall

/-- What a call writes. -/
def events : WriterCall α β → List (DocEvent α β)
  | .start tag => [.opened tag]
  | .stop => [.closed]
  | .leaf item => [.wrote item]
  | .check => []

/-- The open elements after a script; `none` if it closes one too many. -/
def reach : List α → List (WriterCall α β) → Option (List α)
  | st, [] => some st
  | st, .start tag :: cs => reach (tag :: st) cs
  | [], .stop :: _ => none
  | _ :: st, .stop :: cs => reach st cs
  | st, .leaf _ :: cs => reach st cs
  | st, .check :: cs => reach st cs

theorem reach_append (st : List α) (cs ds : List (WriterCall α β)) :
    reach st (cs ++ ds) = (reach st cs).bind fun st => reach st ds := by
  induction cs generalizing st with
  | nil => rfl
  | cons c cs ih =>
    cases c with
    | stop =>
      cases st with
      | nil => rfl
      | cons _ st => exact ih st
    | _ => exact ih _

/-- A script does not touch the elements below those it knows of. -/
theorem reach_frame {st st' : List α} {cs : List (WriterCall α β)}
    (h : reach st cs = some st') (base : List α) :
    reach (st ++ base) cs = some (st' ++ base) := by
  induction cs generalizing st with
  | nil =>
    cases h
    rfl
  | cons c cs ih =>
    cases c with
    | stop =>
      cases st with
      | nil => cases h
      | cons _ st => exact ih h
    | start tag => exact ih h
    | leaf item => exact ih h
    | check => exact ih h

/-- Rename the tags and the items of a call. -/
def map (f : α → γ) (g : β → δ) : WriterCall α β → WriterCall γ δ
  | .start tag => .start (f tag)
  | .stop => .stop
  | .leaf item => .leaf (g item)
  | .check => .check

theorem reach_map (f : α → γ) (g : β → δ) (st : List α) (cs : List (WriterCall α β)) :
    reach (st.map f) (cs.map (map f g)) = (reach st cs).map (List.map f) := by
  induction cs generalizing st with
  | nil => rfl
  | cons c cs ih =>
    cases c with
    | stop =>
      cases st with
      | nil => rfl
      | cons _ st => exact ih st
    | start tag => exact ih (tag :: st)
    | leaf item => exact ih st
    | check => exact ih st

/-- All that a script writes. -/
def document (cs : List (WriterCall α β)) : List (DocEvent α β) := cs.flatMap events

@[simp]
theorem document_nil : document ([] : List (WriterCall α β)) = [] := rfl

@[simp]
theorem document_cons (c : WriterCall α β) (cs : List (WriterCall α β)) :
    document (c :: cs) = c.events ++ document cs :=
  List.flatMap_cons

@[simp]
theorem document_append (cs ds : List (WriterCall α β)) :
    document (cs ++ ds) = document cs ++ document ds :=
  List.flatMap_append

theorem run_document {st st' : List α} {cs : List (WriterCall α β)}
    (h : reach st cs = some st') {c : Cursor α} (hc : c.stack = st) :
    (c.run (document cs)).stack = st' := by
  induction cs generalizing st c with
  | nil =>
    cases h
    exact hc
  | cons call cs ih =>
    rw [document_cons, Cursor.run_append]
    cases call with
    | start tag => exact ih h (by simp [events, Cursor.step, hc])
    | stop =>
      cases st with
      | nil => cases h
      | cons _ st => exact ih h (by simp [events, Cursor.step, hc])
    | leaf item => exact ih h (by simp [events, Cursor.step, hc])
    | check => exact ih h (by simpa [events] using hc)

/-- A script that only closes what it opened has closed none of the elements around
it. -/
theorem justClosed_map {P : Option γ → Prop} {f : α → γ} (g : β → δ) (hnone : P none)
    (hsome : ∀ tag, P (some (f tag))) {st st' : List α} {cs : List (WriterCall α β)}
    (h : reach st cs = some st') {c : Cursor γ} {base : List γ}
    (hc : c.stack = st.map f ++ base) (hstart : P c.justClosed) :
    P (c.run (document (cs.map (map f g)))).justClosed := by
  induction cs generalizing st c with
  | nil => exact hstart
  | cons call cs ih =>
    rw [List.map_cons, document_cons, Cursor.run_append]
    cases call with
    | start tag => exact ih h (by simp [map, events, Cursor.step, hc]) hnone
    | stop =>
      cases st with
      | nil => cases h
      | cons tag st =>
        apply ih h
        · simp [map, events, Cursor.step, hc]
        · simpa [map, events, Cursor.step, hc] using hsome tag
    | leaf item => exact ih h hc hnone
    | check => exact ih h hc hstart

end WriterCall

/-- A piece of a document that closes what it opens. -/
structure Fragment (α β : Type*) where
  calls : List (WriterCall α β)
  balanced : WriterCall.reach [] calls = some []

namespace Fragment

open WriterCall

/-- The calls of a fragment, within a document with other tags and items. -/
def embed (f : α → γ) (g : β → δ) (fragment : Fragment α β) : List (WriterCall γ δ) :=
  fragment.calls.map (WriterCall.map f g)

@[simp]
theorem reach_embed (f : α → γ) (g : β → δ) (fragment : Fragment α β) (st : List γ) :
    reach st (fragment.embed f g) = some st := by
  have hmap := reach_map f g [] fragment.calls
  rw [fragment.balanced] at hmap
  exact reach_frame hmap st

/-- What an embedded fragment writes. -/
theorem mem_document_embed {f : α → γ} {g : β → δ} {fragment : Fragment α β}
    {e : DocEvent γ δ} (h : e ∈ document (fragment.embed f g)) :
    (∃ tag, e = .opened (f tag)) ∨ e = .closed ∨ ∃ item, e = .wrote (g item) := by
  obtain ⟨call, hcall, he⟩ := List.mem_flatMap.1 h
  obtain ⟨c, -, rfl⟩ := List.mem_map.1 hcall
  cases c with
  | start tag => exact .inl ⟨tag, List.mem_singleton.1 he⟩
  | stop => exact .inr (.inl (List.mem_singleton.1 he))
  | leaf item => exact .inr (.inr ⟨item, List.mem_singleton.1 he⟩)
  | check => cases he

end Fragment

/-- The document so far, the number of calls made, and the faults they met. -/
structure TextWriter (α β φ : Type*) where
  document : List (DocEvent α β)
  calls : ℕ
  faulted : List φ

namespace TextWriter

open WriterCall

variable (faults : ℕ → Option φ) {f : φ} {cs : List (WriterCall α β)} {w : TextWriter α β φ}

def fresh : TextWriter α β φ := ⟨[], 0, []⟩

/-- The elements that are open. -/
def stack (w : TextWriter α β φ) : List α := (Cursor.start.run w.document).stack

/-- A call that fails, for a fault or because it closes an element too many. -/
def refused (fault : Option φ) (w : TextWriter α β φ) : TextWriter α β φ :=
  { w with calls := w.calls + 1, faulted := w.faulted ++ fault.toList }

/-- Make the calls of a script, up to the first one that fails. -/
def perform : List (WriterCall α β) → TextWriter α β φ → Bool × TextWriter α β φ
  | [], w => (true, w)
  | c :: cs, w =>
    if (faults w.calls).isSome ∨ (reach w.stack [c]).isNone then
      (false, w.refused (faults w.calls))
    else perform cs { w with document := w.document ++ c.events, calls := w.calls + 1 }

/-- End the document: close all that is open. -/
def finish (w : TextWriter α β φ) : Bool × TextWriter α β φ :=
  if (faults w.calls).isSome then (false, w.refused (faults w.calls))
  else (true, { w with
    document := w.document ++ List.replicate w.stack.length .closed
    calls := w.calls + 1 })

/-- The writer after a script that was performed to its end. -/
def after (cs : List (WriterCall α β)) (w : TextWriter α β φ) : TextWriter α β φ :=
  { w with document := w.document ++ WriterCall.document cs, calls := w.calls + cs.length }

/-- The first fault that `len` calls from the `n`th one on meet. -/
def firstFault (n len : ℕ) : Option φ := (List.range' n len).findSome? faults

theorem firstFault_add (n a b : ℕ) :
    firstFault faults n (a + b) =
      (firstFault faults n a).or (firstFault faults (n + a) b) := by
  rw [firstFault, ← List.range'_append_1, List.findSome?_append]
  rfl

@[simp]
theorem firstFault_noFault (n len : ℕ) : firstFault (fun _ => (none : Option φ)) n len = none := by
  simp [firstFault]

theorem after_append (cs ds : List (WriterCall α β)) (w : TextWriter α β φ) :
    after (cs ++ ds) w = after ds (after cs w) := by
  simp [after, Nat.add_assoc]

theorem after_stack {st : List α} (h : reach w.stack cs = some st) :
    (after cs w).stack = st := by
  rw [stack, after, Cursor.run_append]
  exact run_document h rfl

theorem faulted_refused_of_mem (fault : Option φ) (h : f ∈ w.faulted) :
    f ∈ (w.refused fault).faulted := by
  simp [refused, h]

/-- A finished document has no open elements. -/
theorem finish_stack (w : TextWriter α β φ) (h : faults w.calls = none) :
    (finish faults w).1 = true ∧ (finish faults w).2.stack = [] := by
  simp [finish, h, stack, Cursor.run_closed]

variable {faults}

/-- Faults stay on record. -/
theorem faulted_perform (cs : List (WriterCall α β)) (h : f ∈ w.faulted) :
    f ∈ (perform faults cs w).2.faulted := by
  induction cs generalizing w with
  | nil => exact h
  | cons c cs ih =>
    rw [perform]
    split
    · exact faulted_refused_of_mem _ h
    · exact ih h

theorem faulted_finish (h : f ∈ w.faulted) : f ∈ (finish faults w).2.faulted := by
  rw [finish]
  split
  · exact faulted_refused_of_mem _ h
  · exact h

variable (faults) in
/-- What a script has written when it ends, early or not. -/
theorem perform_document (cs : List (WriterCall α β)) (w : TextWriter α β φ) :
    ∃ k, (perform faults cs w).2.document =
      w.document ++ WriterCall.document (cs.take k) := by
  induction cs generalizing w with
  | nil => exact ⟨0, by simp [perform]⟩
  | cons c cs ih =>
    rw [perform]
    split
    · exact ⟨0, by simp [refused]⟩
    · obtain ⟨k, hk⟩ :=
        ih { w with document := w.document ++ c.events, calls := w.calls + 1 }
      exact ⟨k + 1, by simp [hk]⟩

/-- Where nothing fails, nothing is put on record. -/
theorem faulted_perform_none (cs : List (WriterCall α β)) (w : TextWriter α β φ) :
    (perform (fun _ => none) cs w).2.faulted = w.faulted := by
  induction cs generalizing w with
  | nil => rfl
  | cons c cs ih =>
    rw [perform]
    split
    · simp [refused]
    · exact ih _

theorem faulted_finish_none (w : TextWriter α β φ) :
    (finish (fun _ => none) w).2.faulted = w.faulted := by
  simp [finish]

section Reaching

variable {st : List α}

/-- A script that closes no element too many and meets no fault is performed to its
end. -/
theorem perform_of_none (hreach : reach w.stack cs = some st)
    (hnone : firstFault faults w.calls cs.length = none) :
    perform faults cs w = (true, after cs w) := by
  induction cs generalizing w with
  | nil => simp [perform, after]
  | cons c cs ih =>
    rw [← List.singleton_append, reach_append] at hreach
    obtain ⟨next, hnext, hrest⟩ := Option.bind_eq_some_iff.1 hreach
    rw [List.length_cons, Nat.add_comm, firstFault_add, Option.or_eq_none_iff] at hnone
    have hfirst : faults w.calls = none := by simpa [firstFault] using hnone.1
    have hone : after [c] w =
        { w with document := w.document ++ c.events, calls := w.calls + 1 } := by
      simp [after]
    rw [perform, if_neg (by simp [hfirst, hnext]), ← hone,
      ih (by rw [after_stack hnext]; exact hrest) hnone.2, ← after_append]
    rfl

/-- A script that meets a fault ends with it. -/
theorem perform_of_some (hreach : reach w.stack cs = some st)
    (hsome : firstFault faults w.calls cs.length = some f) :
    (perform faults cs w).1 = false ∧
      (perform faults cs w).2.faulted = w.faulted ++ [f] := by
  induction cs generalizing w with
  | nil => simp [firstFault] at hsome
  | cons c cs ih =>
    rw [← List.singleton_append, reach_append] at hreach
    obtain ⟨next, hnext, hrest⟩ := Option.bind_eq_some_iff.1 hreach
    rw [List.length_cons, Nat.add_comm, firstFault_add] at hsome
    have hone : after [c] w =
        { w with document := w.document ++ c.events, calls := w.calls + 1 } := by
      simp [after]
    rw [perform]
    cases hfirst : faults w.calls with
    | some g =>
      have heq : g = f := by simpa [firstFault, hfirst] using hsome
      simp [refused, heq]
    | none =>
      rw [if_neg (by simp [hnext]), ← hone]
      apply ih (by rw [after_stack hnext]; exact hrest)
      simpa [firstFault, hfirst, after] using hsome

end Reaching

end TextWriter

end AuroraLtfs
