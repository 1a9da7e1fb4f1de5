import AuroraLtfs.Sched.WriteSpec

/-!
# The rounds of the walk

Each round of the walk of `unified_write` keeps the invariant and queues bytes
as it goes; a round that leaves the loop leaves a list in order.  From that,
what the whole walk and the whole write do.
-/

namespace AuroraLtfs.Sched

open RequestState

variable {β : Type*}

/-- The walk is at the label: bytes are left, and they belong before the first
request. -/
def AtLabel (w : Walk β) (todo : List (WriteRequest β)) : Prop :=
  w.bytes ≠ [] ∧ ∃ y ys, todo = y :: ys ∧ w.offset < y.offset

/-- The request list as a whole. -/
structure ListInv (cs : ℕ) (raw f : SparseFile β)
    (requests : List (WriteRequest β)) (fileSize : ℕ) : Prop where
  shows : Shows raw f requests fileSize
  sound : Sound cs raw requests
  order : InOrder requests

/-- What a round leaves, for a list with `length` requests behind the current
one.  When it goes on, at most `bound` bytes are left. -/
def RoundSpec (cs : ℕ) (raw f : SparseFile β) (w : Walk β) (length bound : ℕ) :
    Round β → Prop
  | .next v todo => ∃ g, WalkInv cs raw g v todo ∧ Advances f w g v ∧
      todo.length = length ∧ v.bytes.length ≤ bound
  | .again v todo => ∃ g, WalkInv cs raw g v todo ∧ Advances f w g v ∧
      todo.length = length + 1 ∧ v.bytes.length ≤ bound ∧ AtLabel v todo
  | .stop exit v todo => ∃ g, ListInv cs raw g (v.front ++ todo) v.fileSize ∧
      Advances f w g v ∧ exit ≠ .ended ∧ (exit = .finished → v.bytes = [])

theorem RoundSpec.after {cs length bound bound' : ℕ} {raw f g : SparseFile β}
    {w v : Walk β} {r : Round β} (hr : RoundSpec cs raw g v length bound r)
    (hadv : Advances f w g v) (hbound : bound ≤ bound') :
    RoundSpec cs raw f w length bound' r := by
  cases r with
  | next u todo =>
    obtain ⟨h, hinv, hu, hlength, hleft⟩ := hr
    exact ⟨h, hinv, hadv.trans hu, hlength, hleft.trans hbound⟩
  | again u todo =>
    obtain ⟨h, hinv, hu, hlength, hleft, hlabel⟩ := hr
    exact ⟨h, hinv, hadv.trans hu, hlength, hleft.trans hbound, hlabel⟩
  | stop exit u todo =>
    obtain ⟨h, hlist, hu, hexit⟩ := hr
    exact ⟨h, hlist, hadv.trans hu, hexit⟩

theorem Advances.length_le {f g : SparseFile β} {w v : Walk β}
    (h : Advances f w g v) : v.bytes.length ≤ w.bytes.length := by
  obtain ⟨n, -, -, -, hbytes⟩ := h
  rw [hbytes, List.length_drop]
  omega

section Overlap

variable {cs : ℕ} {raw f : SparseFile β} {w : Walk β} {req : WriteRequest β}
  {rest : List (WriteRequest β)}

/-- Nothing before the current request reaches over it. -/
def Clear (w : Walk β) (req : WriteRequest β) : Prop :=
  ∀ p, w.prev = some p → p.stop ≤ req.offset

theorem WalkInv.front_stop (h : WalkInv cs raw f w (req :: rest))
    (hclear : Clear w req) {x : WriteRequest β} (hx : x ∈ w.front) :
    x.stop ≤ req.offset := by
  cases mem_front.1 hx with
  | inl hx => exact h.behind x hx req (by simp)
  | inr hx => exact hclear x hx

/-- The whole list is in order when nothing reaches over the current
request. -/
theorem WalkInv.listInv (h : WalkInv cs raw f w (req :: rest))
    (hclear : Clear w req) : ListInv cs raw f (w.front ++ req :: rest) w.fileSize := by
  refine ⟨h.shows, h.sound, (Segments.ordered_append _).2 ⟨h.front, h.rest, ?_⟩⟩
  intro x hx y hy
  have hle := h.front_stop hclear hx
  cases List.mem_cons.1 hy with
  | inl hy => exact hy ▸ hle
  | inr hy =>
    obtain ⟨hreq, -⟩ := (Segments.ordered_cons _).1 h.rest
    have hy' : req.stop ≤ y.offset := hreq y hy
    have hstop : req.stop = req.offset + req.count := rfl
    exact show x.stop ≤ y.offset by omega

theorem WalkInv.req_rest (h : WalkInv cs raw f w (req :: rest)) :
    (∀ y ∈ rest, req.stop ≤ y.offset) ∧ InOrder rest :=
  (Segments.ordered_cons _).1 h.rest

/-- The invariant while no request has been touched. -/
theorem WalkInv.of_untouched {todo : List (WriteRequest β)} (hprev : w.prev = none)
    (hlist : ListInv cs raw f (w.front ++ todo) w.fileSize) (hbytes : w.bytes ≠ [])
    (hpending : ∀ x ∈ w.front, x.stop ≤ w.offset)
    (hclear : ¬Clobbers cs w.offset todo) : WalkInv cs raw f w todo := by
  obtain ⟨hfront, htodo, hbehind⟩ := (Segments.ordered_append _).1 hlist.order
  have hnoprev : ∀ p, w.prev ≠ some p := by simp [hprev]
  constructor
  · exact hlist.shows
  · exact hlist.sound
  · exact hfront
  · exact htodo
  · exact fun x hx => hbehind x (mem_front.2 (.inl hx))
  · exact fun p hp => absurd hp (hnoprev p)
  · exact fun p hp => absurd hp (hnoprev p)
  · exact fun p hp => absurd hp (hnoprev p)
  · exact fun p hp => absurd hp (hnoprev p)
  · exact fun hempty => absurd hempty hbytes
  · exact fun _ => hpending
  · exact fun _ p hp => absurd hp (hnoprev p)
  · exact fun _ p hp => absurd hp (hnoprev p)
  · exact fun _ => hclear

/-- The current request becomes the previous one. -/
theorem WalkInv.pass (h : WalkInv cs raw f w (req :: rest))
    (hclear : Clear w req) (hreach : w.offset ≤ req.stop)
    (hpending : w.bytes ≠ [] → req.stop ≤ w.offset ∧
      (¬req.IsIp → cs ≤ req.count) ∧
      (req.IsIp → req.count < cs → ∀ y ys, rest = y :: ys → y.IsIp →
        y.offset ≠ w.offset)) : WalkInv cs raw f (w.pass req) rest := by
  obtain ⟨hbehind, horder⟩ := h.req_rest
  have hpos := (h.sound req (by simp)).1.1
  have hstop : req.stop = req.offset + req.count := rfl
  apply WalkInv.of_prev (p := req) rfl rfl
  · exact h.shows
  · exact h.sound
  · exact h.front
  · exact fun x hx => h.front_stop hclear hx
  · exact horder
  · intro y hy
    have hle := hbehind y hy
    omega
  · exact fun _ => hbehind
  · exact hreach
  · exact hpending

theorem promote_front (w : Walk β) (upTo : Option ℕ) :
    (w.promote upTo).front = w.front.map (.promote upTo) := by
  cases hp : w.prev <;> simp [Walk.front, Walk.promote, hp]

/-- The requests around one of them may become ready. -/
theorem Shows.promote {a b : List (WriteRequest β)} {fileSize : ℕ}
    (h : Shows raw f (a ++ req :: b) fileSize) (upTo : Option ℕ) :
    Shows raw f (a.map (.promote upTo) ++ req :: b.map (.promote upTo))
      fileSize := by
  apply h.congr
  · have hwithin := h.within
    simp only [List.forall_mem_append, List.forall_mem_cons, List.forall_mem_map,
      promote_stop] at hwithin ⊢
    exact hwithin
  · intro i
    rw [Segments.lookup_append, Segments.lookup_append, lookup_request,
      lookup_request, lookup_promote, lookup_promote]

/-- The bytes of the file with the new ones put into the current request. -/
theorem Shows.update {a b : List (WriteRequest β)} {fileSize offset : ℕ}
    (h : Shows raw f (a ++ req :: b) fileSize) (hbefore : ∀ x ∈ a, x.stop ≤ offset)
    {bytes : List β} {u : Updated β} (hu : UpdateSpec cs bytes offset req u)
    (hlo : req.offset ≤ offset) (hhi : offset ≤ req.stop) (hcopied : 0 < u.copied) :
    Shows raw (f.put offset (bytes.take u.copied)) (a ++ u.req :: b)
      (max fileSize u.req.stop) := by
  have hlength : (bytes.take u.copied).length = u.copied := by
    rw [List.length_take, hu.copied]
    omega
  have hustop : u.req.stop = u.req.offset + u.req.count := rfl
  have hreq : req.stop = req.offset + req.count := rfl
  have hstart := hu.start
  have hcount := hu.count
  have hreqSize := h.within req (by simp)
  have hsize : max fileSize u.req.stop =
      max fileSize (offset + (bytes.take u.copied).length) := by
    rw [hlength]
    omega
  rw [hsize]
  apply h.write (List.length_pos_iff.1 (by omega)) hbefore
  · intro i
    rw [lookup_request, lookup_request, hlength]
    by_cases hin : offset ≤ i ∧ i < offset + u.copied
    · rw [if_pos hin, if_pos (by omega), hu.get i (by omega), if_pos hin]
      rw [List.getElem?_take_of_lt (by omega)]
    · rw [if_neg hin]
      by_cases hold : req.offset ≤ i ∧ i < req.stop
      · rw [if_pos (by omega), if_pos hold, hu.get i hold.1, if_neg hin]
      · rw [if_neg (by omega), if_neg hold]
  · intro r hr
    rw [← hsize]
    cases List.mem_cons.1 hr with
    | inl hr => exact hr ▸ le_max_right _ _
    | inr hr => exact le_max_of_le_left (h.within r (by simp [hr]))

/-- New bytes go into the current request. -/
theorem WalkInv.update (h : WalkInv cs raw f w (req :: rest)) (hbytes : w.bytes ≠ [])
    (hclear : Clear w req) (hip : ¬req.IsIp) (hlo : req.offset ≤ w.offset)
    (hhi : w.offset ≤ req.stop) (hroom : w.offset < req.stop ∨ req.count < cs)
    {u : Updated β} (hu : UpdateSpec cs w.bytes w.offset req u) :
    ∃ g, WalkInv cs raw g ((((w.promote u.promoted).growTo u.reached).advance
        u.copied).pass u.req) (rest.map (.promote u.promoted)) ∧
      Advances f w g ((((w.promote u.promoted).growTo u.reached).advance
        u.copied).pass u.req) := by
  obtain ⟨hbehind, horder⟩ := h.req_rest
  obtain ⟨⟨hpos, hle⟩, -⟩ := h.sound req (by simp)
  have hlength := List.length_pos_iff.2 hbytes
  have hreq : req.stop = req.offset + req.count := rfl
  have hustop : u.req.stop = u.req.offset + u.req.count := rfl
  have hstart := hu.start
  have hcount := hu.count
  have hcopied := hu.copied
  have huip : ¬u.req.IsIp := fun hnot => hip (hu.isIp.1 hnot)
  have hshows := Shows.update h.shows (h.pending hbytes) hu hlo hhi (by omega)
  obtain ⟨v, hv⟩ : ∃ v, v = (((w.promote u.promoted).growTo
    u.reached).advance u.copied).pass u.req := ⟨_, rfl⟩
  have hvbefore : v.before = w.front.map (.promote u.promoted) := by
    rw [hv, ← promote_front]
    rfl
  have hvsize : v.fileSize = max w.fileSize u.req.stop := by
    rw [hv, ← hu.reached]
    exact growTo_fileSize _ _
  have hvoffset : v.offset = w.offset + u.copied := by rw [hv]; rfl
  have hvbytes : v.bytes = w.bytes.drop u.copied := by rw [hv]; rfl
  rw [← hv]
  refine ⟨_, ?_, u.copied, by omega, rfl, hvoffset, hvbytes⟩
  apply WalkInv.of_prev (p := u.req) (by rw [hv]; rfl) (by rw [hv]; rfl)
  · rw [hvbefore, hvsize]
    exact hshows.promote u.promoted
  · have hsound := h.sound
    simp only [hvbefore, sound_append, sound_cons, sound_promote] at hsound ⊢
    exact ⟨hsound.1, ⟨⟨by omega, by omega⟩, fun hnot => absurd hnot huip⟩, hsound.2.2⟩
  · rw [hvbefore]
    exact (inOrder_promote _ _).2 h.front
  · rw [hvbefore]
    intro x hx
    obtain ⟨y, hy, rfl⟩ := List.mem_map.1 hx
    rw [promote_stop, hstart]
    exact h.front_stop hclear hy
  · exact (inOrder_promote _ _).2 horder
  · intro x hx
    obtain ⟨y, hy, rfl⟩ := List.mem_map.1 hx
    rw [promote_offset, hstart]
    have hy' := hbehind y hy
    omega
  · exact fun hnot => absurd hnot huip
  · omega
  · intro hmore
    rw [hvbytes] at hmore
    have hleft := List.length_pos_iff.2 hmore
    rw [List.length_drop] at hleft
    exact ⟨by omega, fun _ => by omega, fun hnot => absurd hnot huip⟩

/-- What may become of a request that waits for the index partition. -/
structure Parts (cs : ℕ) (raw : SparseFile β) (req : WriteRequest β)
    (mid : List (WriteRequest β)) : Prop where
  order : InOrder mid
  sound : Sound cs raw mid
  within : ∀ r ∈ mid, r.IsIp ∧ req.offset ≤ r.offset ∧ r.stop ≤ req.stop

theorem Parts.nil : Parts cs raw req [] :=
  ⟨List.Pairwise.nil, by simp [Sound], by simp⟩

theorem Parts.singleton {r : WriteRequest β} (hip : r.IsIp) (hfits : Fits cs r)
    (hbacked : Backed raw r) (hlo : req.offset ≤ r.offset)
    (hhi : r.stop ≤ req.stop) : Parts cs raw req [r] :=
  ⟨List.pairwise_singleton _ _, by simpa [Sound] using ⟨hfits, hbacked⟩,
    by simpa using ⟨hip, hlo, hhi⟩⟩

theorem Parts.shows {a : List (WriteRequest β)} {fileSize : ℕ}
    {mid : List (WriteRequest β)} (hmid : Parts cs raw req mid)
    (h : Shows raw f (a ++ req :: rest) fileSize) (hip : req.IsIp)
    (hbacked : Backed raw req) (hbehind : ∀ y ∈ rest, req.stop ≤ y.offset) :
    Shows raw f (a ++ (mid ++ rest)) fileSize := by
  apply h.thin mid hip hbacked hbehind
  intro r hr
  obtain ⟨hrip, hwithin⟩ := hmid.within r hr
  exact ⟨hrip, (hmid.sound r hr).2, hwithin⟩

/-- A request that waits for the index partition is replaced by parts of it. -/
theorem ListInv.thin {a mid : List (WriteRequest β)} {fileSize : ℕ}
    (h : ListInv cs raw f (a ++ req :: rest) fileSize) (hip : req.IsIp)
    (hmid : Parts cs raw req mid) : ListInv cs raw f (a ++ (mid ++ rest)) fileSize := by
  obtain ⟨-, htail, -⟩ := (Segments.ordered_append _).1 h.order
  obtain ⟨ha, hreq, hrest⟩ : Sound cs raw a ∧ (Fits cs req ∧ Backed raw req) ∧
      Sound cs raw rest := by simpa only [sound_append, sound_cons] using h.sound
  constructor
  · exact hmid.shows h.shows hip hreq.2 ((Segments.ordered_cons _).1 htail).1
  · exact sound_append.2 ⟨ha, sound_append.2 ⟨hmid.sound, hrest⟩⟩
  · exact h.order.thin hmid.order fun r hr => (hmid.within r hr).2

variable (h : WalkInv cs raw f w (req :: rest))

include h

/-- Likewise for the current request, when the new bytes start before all that
is left of it. -/
theorem WalkInv.thin {mid : List (WriteRequest β)} (hip : req.IsIp)
    (hmid : Parts cs raw req mid) (hin : w.offset < req.stop)
    (hafter : ∀ r ∈ mid, w.offset < r.offset) : WalkInv cs raw f w (mid ++ rest) := by
  obtain ⟨hbehind, horder⟩ := h.req_rest
  obtain ⟨hfront, hreq, hrest⟩ : Sound cs raw w.front ∧
      (Fits cs req ∧ Backed raw req) ∧ Sound cs raw rest := by
    simpa only [sound_append, sound_cons] using h.sound
  have htodo : ∀ y ∈ mid ++ rest,
      w.offset < y.offset ∧ ∃ x ∈ req :: rest, x.offset ≤ y.offset := by
    intro y hy
    cases List.mem_append.1 hy with
    | inl hy => exact ⟨hafter y hy, req, by simp, (hmid.within y hy).2.1⟩
    | inr hy => exact ⟨hin.trans_le (hbehind y hy), y, by simp [hy], le_rfl⟩
  constructor
  · exact hmid.shows h.shows hip hreq.2 hbehind
  · exact sound_append.2 ⟨hfront, sound_append.2 ⟨hmid.sound, hrest⟩⟩
  · exact h.front
  · exact InOrder.thin (a := []) h.rest hmid.order fun r hr => (hmid.within r hr).2
  · intro x hx y hy
    obtain ⟨-, z, hz, hle⟩ := htodo y hy
    exact (h.behind x hx z hz).trans hle
  · intro p hp y hy
    obtain ⟨-, z, hz, hle⟩ := htodo y hy
    exact (h.below p hp z hz).trans_le hle
  · intro p hp hpip y hy
    obtain ⟨-, z, hz, hle⟩ := htodo y hy
    exact (h.apart p hp hpip z hz).trans hle
  · exact h.reaches
  · exact h.close
  · exact h.queued
  · exact h.pending
  · exact h.full
  · intro _ p _ _ _ y ys hlist _
    exact (htodo y (by simp [hlist])).1.ne'
  · rintro - ⟨a, r, s, b, hlist, -, -, -, hs, -⟩
    exact (htodo s (by simp [hlist])).1.ne' hs

/-- The current request waits for the index partition and goes away. -/
theorem WalkInv.remove (hip : req.IsIp) (hin : w.offset < req.stop) : WalkInv cs raw f w rest :=
  h.thin hip .nil hin (by simp)

/-- The current request waits for the index partition and is cut so that it
starts behind the new bytes. -/
theorem WalkInv.cut (hip : req.IsIp) {n : ℕ} (hn : n < req.count)
    (hafter : w.offset < req.offset + n) : WalkInv cs raw f w (req.trimBegin n :: rest) := by
  obtain ⟨hfits, hbacked⟩ := h.sound req (by simp)
  obtain ⟨hstart, hstop, hcutIp, hcutFits, hcutBacked⟩ :=
    trimBegin_part hn hfits hip hbacked
  have hreq : req.stop = req.offset + req.count := rfl
  apply h.thin hip (.singleton hcutIp hcutFits hcutBacked _ hstop.le)
  · omega
  · rw [List.forall_mem_singleton, hstart]
    exact hafter
  · omega

/-- The current request waits for the index partition and is cut where the new
bytes start. -/
theorem WalkInv.passCut (hclear : Clear w req) (hip : req.IsIp)
    (hlo : req.offset < w.offset) (hin : w.offset < req.stop) :
    WalkInv cs raw f (w.pass (req.trimEnd w.offset)) rest := by
  obtain ⟨hbehind, horder⟩ := h.req_rest
  obtain ⟨hfits, hbacked⟩ := h.sound req (by simp)
  obtain ⟨hstart, hstop, hcutIp, hcutFits, hcutBacked⟩ :=
    trimEnd_part hlo hin.le hfits hip hbacked
  have hcut := (h.listInv hclear).thin hip
    (.singleton hcutIp hcutFits hcutBacked hstart.ge (by omega))
  apply WalkInv.of_prev (p := req.trimEnd w.offset) rfl rfl
  · exact hcut.shows
  · exact hcut.sound
  · exact h.front
  · exact fun x hx => hstart ▸ h.front_stop hclear hx
  · exact horder
  · intro y hy
    have hle := hbehind y hy
    omega
  · intro _ y hy
    have hle := hbehind y hy
    omega
  · exact hstop.ge
  · intro _
    refine ⟨hstop.le, fun hnot => absurd hcutIp hnot, ?_⟩
    intro _ _ y ys hrest _
    have hle := hbehind y (by simp [hrest])
    exact show y.offset ≠ w.offset by omega

/-- The current request waits for the index partition and is split around the
new bytes. -/
theorem WalkInv.split (hnone : w.prev = none) (hbytes : w.bytes ≠ []) (hip : req.IsIp)
    (hlo : req.offset < w.offset) {n : ℕ} (hn : n < req.count)
    (hafter : w.offset < req.offset + n) {v : Walk β} (hbefore : v.before = w.before)
    (hprev : v.prev = none) (hskipped : v.skipped = w.skipped ++ [req.trimEnd w.offset])
    (hsize : v.fileSize = w.fileSize) (hoffset : v.offset = w.offset)
    (hvbytes : v.bytes = w.bytes) : WalkInv cs raw f v (req.trimBegin n :: rest) := by
  obtain ⟨hbehind, horder⟩ := h.req_rest
  obtain ⟨hfits, hbacked⟩ := h.sound req (by simp)
  have hreq : req.stop = req.offset + req.count := rfl
  obtain ⟨hstart, hstop, hcutIp, hcutFits, hcutBacked⟩ :=
    trimEnd_part hlo (show w.offset ≤ req.stop by omega) hfits hip hbacked
  obtain ⟨hstart', hstop', hcutIp', hcutFits', hcutBacked'⟩ :=
    trimBegin_part hn hfits hip hbacked
  have hfront : v.front = w.front ++ [req.trimEnd w.offset] := by
    simp [Walk.front, hprev, hnone, hbefore, hskipped]
  have hparts : Parts cs raw req [req.trimEnd w.offset, req.trimBegin n] := by
    constructor
    · have hle : (req.trimEnd w.offset).stop ≤ (req.trimBegin n).offset := by omega
      exact List.pairwise_pair.2 hle
    · simpa [Sound] using ⟨⟨hcutFits, hcutBacked⟩, hcutFits', hcutBacked'⟩
    · simp only [List.forall_mem_cons]
      exact ⟨⟨hcutIp, hstart.ge, by omega⟩, ⟨hcutIp', by omega, hstop'.le⟩, by simp⟩
  have hlist := (h.listInv fun p hp => by simp [hnone] at hp).thin hip hparts
  apply WalkInv.of_untouched hprev
  · rw [hfront, hsize, List.append_assoc]
    exact hlist
  · exact hvbytes ▸ hbytes
  · rw [hfront, hoffset, List.forall_mem_append, List.forall_mem_singleton]
    exact ⟨h.pending hbytes, hstop.le⟩
  · rw [hoffset]
    exact (h.cut hip hn hafter).clear hnone

/-- Bytes that go into a request behind its start come before any other
request was touched. -/
theorem WalkInv.prev_none (hbytes : w.bytes ≠ []) (hclear : Clear w req)
    (hlo : req.offset < w.offset) : w.prev = none := by
  cases hp : w.prev with
  | none => rfl
  | some p =>
    have hstop := h.prev_stop hbytes hp
    have hle := hclear p hp
    omega

/-- The overlap between the new write and the current request. -/
theorem overlap_spec (hbytes : w.bytes ≠ []) (hclear : Clear w req)
    (hreach : w.offset ≤ req.stop) :
    RoundSpec cs raw f w rest.length w.bytes.length
      (overlap cs w req rest) := by
  obtain ⟨hfits, hbacked⟩ := h.sound req (by simp)
  have hreq : req.stop = req.offset + req.count := rfl
  have hpos := hfits.1
  have hcount := hfits.2
  have hlength := List.length_pos_iff.2 hbytes
  rw [overlap]
  by_cases hbefore : w.offset < req.offset
  · rw [if_pos hbefore]
    exact ⟨f, h, .of_eq rfl rfl, rfl, le_rfl, hbytes, req, rest, rfl, hbefore⟩
  rw [if_neg hbefore]
  by_cases hupdate : ¬req.IsIp ∧ (w.offset < req.stop ∨
      (w.offset = req.stop ∧ req.count < cs))
  · rw [if_pos hupdate]
    obtain ⟨g, hinv, hadv⟩ := h.update hbytes hclear hupdate.1
      (not_lt.1 hbefore) hreach (by tauto)
      (updateRequest_spec cs hbytes (not_lt.1 hbefore) hreach)
    exact ⟨g, hinv, hadv, by simp, hadv.length_le⟩
  rw [if_neg hupdate]
  by_cases hip : req.IsIp ∧ w.offset < req.stop
  · rw [if_pos hip]
    by_cases hremove : w.offset = req.offset ∧ req.count ≤ w.bytes.length
    · rw [if_pos hremove]
      exact ⟨f, h.remove hip.1 hip.2, .of_eq rfl rfl, rfl, le_rfl⟩
    rw [if_neg hremove]
    by_cases hcut : w.offset = req.offset
    · rw [if_pos hcut]
      refine ⟨f, h.cut hip.1 (by omega) (by omega), .of_eq rfl rfl, rfl,
        le_rfl, hbytes, _, rest, rfl, ?_⟩
      exact show w.offset < req.offset + w.bytes.length by omega
    rw [if_neg hcut]
    by_cases htail : req.stop ≤ w.offset + w.bytes.length
    · rw [if_pos htail]
      exact ⟨f, h.passCut hclear hip.1 (by omega) hip.2, .of_eq rfl rfl, rfl, le_rfl⟩
    rw [if_neg htail]
    by_cases hblocks : w.blocks = 0
    · rw [if_pos hblocks]
      exact ⟨f, h.listInv hclear, .of_eq rfl rfl, by simp, by simp⟩
    rw [if_neg hblocks]
    have hnone := h.prev_none hbytes hclear (by omega)
    have hn : w.offset - req.offset + w.bytes.length < req.count := by omega
    have hpiece : { req.trimBegin (w.offset - req.offset + w.bytes.length) with
        data := (req.trimBegin (w.offset - req.offset +
          w.bytes.length)).data.take cs } =
        req.trimBegin (w.offset - req.offset + w.bytes.length) := by
      have hlong : (req.trimBegin (w.offset - req.offset +
          w.bytes.length)).data.length ≤ cs := by
        rw [WriteRequest.trimBegin, List.length_drop]
        rw [WriteRequest.count] at hcount
        omega
      rw [List.take_of_length_le hlong]
    obtain ⟨-, hstop, -⟩ := trimBegin_part hn hfits hip.1 hbacked
    simp only [hpiece]
    refine ⟨f, h.split hnone hbytes hip.1 (by omega) hn (by omega) rfl hnone
      rfl ?_ rfl rfl, .of_eq rfl rfl, rfl, le_rfl, hbytes, _, rest, rfl, ?_⟩
    · refine (growTo_fileSize _ _).trans (max_eq_left ?_)
      rw [hstop]
      exact h.shows.within req (by simp)
    · exact show w.offset < req.offset + (w.offset - req.offset + w.bytes.length) by omega
  · rw [if_neg hip]
    refine ⟨f, h.pass hclear hreach fun _ => ⟨?_, ?_, ?_⟩, .of_eq rfl rfl, rfl, le_rfl⟩
    · by_contra hnot
      have hlt := not_le.1 hnot
      tauto
    · intro hnot
      by_contra hroom
      have hstop : w.offset = req.stop := by
        by_contra hne
        exact hupdate ⟨hnot, .inl (by omega)⟩
      exact hupdate ⟨hnot, .inr ⟨hstop, by omega⟩⟩
    · intro hreqIp hroom y ys hrest hyip heq
      have hstop : req.stop = w.offset := by
        by_contra hne
        exact hip ⟨hreqIp, by omega⟩
      have hnone := h.prev_none hbytes hclear (by omega)
      exact h.clear hnone ⟨[], req, y, ys, by rw [hrest]; rfl, hreqIp, hyip,
        hstop, heq, hroom⟩

end Overlap

section Rounds

variable {cs : ℕ} {raw f : SparseFile β} {w : Walk β} {req : WriteRequest β}
  {rest : List (WriteRequest β)}

/-- The body of the loop from the label on. -/
theorem visit_spec (hcs : 0 < cs) (h : WalkInv cs raw f w (req :: rest))
    (hreach : w.offset ≤ req.stop) {bound : ℕ}
    (hbound : w.bytes.length ≤ bound ∨
      (¬Blocked (some req.offset) w ∧ w.bytes.length ≤ bound + 1)) :
    RoundSpec cs raw f w rest.length bound (visit cs w req rest) := by
  obtain ⟨hbehind, -⟩ := h.req_rest
  have hreq : req.stop = req.offset + req.count := rfl
  obtain ⟨ok, v, g, hinsert, hspec⟩ := insertRequests_spec hcs
    (some req.offset) w.bytes.length le_rfl h (by
      intro y hy
      refine ⟨req.offset, rfl, ?_⟩
      cases List.mem_cons.1 hy with
      | inl hy => exact hy ▸ le_rfl
      | inr hy =>
        have hle := hbehind y hy
        omega)
  have hblocked := hspec.blocked
  rw [visit, hinsert]
  cases ok with
  | false =>
    -- nothing inserted reaches over the current request yet
    have hnot : ¬Blocked (some req.offset) v := by
      rw [← hblocked]
      simp
    have hbytes : v.bytes ≠ [] := fun hempty => hnot (.inl hempty)
    have hbefore : v.offset < req.offset := by
      by_contra hge
      exact hnot (.inr ⟨_, rfl, not_lt.1 hge⟩)
    have hclear : Clear v req := by
      intro p hp
      have hstop := hspec.inv.prev_stop hbytes hp
      omega
    exact ⟨g, hspec.inv.listInv hclear, hspec.advances, by simp, by simp⟩
  | true =>
    have hmerge := mergePrev_spec hspec.inv
    obtain ⟨⟨u, src, rest', changed⟩, hrun⟩ : ∃ r, r = mergePrev cs v req rest := ⟨_, rfl⟩
    rw [← hrun] at hmerge
    have hinv : WalkInv cs raw g u (src.toList ++ rest') := hmerge.inv
    have hoffset : u.offset = v.offset := hmerge.offset
    have hbytes : u.bytes = v.bytes := hmerge.bytes
    have hlength : rest'.length = rest.length := hmerge.length
    have hadv : Advances f w g u := by
      obtain ⟨n, hn, hg, ho, hb⟩ := hspec.advances
      exact ⟨n, hn, hg, hoffset.trans ho, hbytes.trans hb⟩
    have hleft : u.bytes.length ≤ bound := by
      have hshorter := hspec.shorter
      have hmoves := hspec.moves
      rw [hbytes]
      cases hbound with
      | inl hbound => omega
      | inr hbound =>
        have := hmoves hbound.1 rfl
        omega
    simp only [← hrun]
    cases src with
    | none => exact ⟨g, hinv, hadv, hlength, hleft⟩
    | some s =>
      obtain ⟨hstop, hlo, hclear⟩ := hmerge.left s rfl
      have hlist := hinv.listInv hclear
      -- a request the new bytes reach beyond would have been freed
      have hreachS : u.offset ≤ s.stop := by
        by_contra hpast
        cases hp : v.prev with
        | none =>
          rw [hspec.still hp] at hoffset
          omega
        | some p =>
          have hle := hspec.inv.reaches p hp
          have hfreed := hmerge.covered p hp (by omega)
          simp at hfreed
      by_cases hempty : u.bytes = []
      · simp only [hempty, if_true]
        cases changed with
        | true =>
          exact ⟨g, hinv.pass hclear hreachS fun hnot =>
            absurd hempty hnot, hadv, hlength, hleft⟩
        | false =>
          refine ⟨g, ?_, hadv, by simp, fun _ => hempty⟩
          have hfront : (u.pass s).front ++ rest' = u.front ++ s :: rest' := by
            simp [Walk.pass, Walk.front]
          rw [hfront]
          exact hlist
      · simp only [hempty, if_false]
        rw [← hlength]
        exact (overlap_spec hinv hempty hclear hreachS).after hadv hleft

/-- A request before the new bytes is skipped. -/
theorem WalkInv.skip (h : WalkInv cs raw f w (req :: rest))
    (hnone : w.prev = none) (hstop : req.stop < w.offset) :
    WalkInv cs raw f (w.skip (some req)) rest := by
  have hfront : (w.skip (some req)).front = w.front ++ [req] := by
    simp [Walk.front, Walk.skip, hnone]
  have hbytes : w.bytes ≠ [] := fun hempty => h.queued hempty hnone
  apply WalkInv.of_untouched
  · exact hnone
  · rw [hfront, List.append_assoc]
    exact h.listInv fun p hp => by simp [hnone] at hp
  · exact hbytes
  · rw [hfront, List.forall_mem_append, List.forall_mem_singleton]
    exact ⟨h.pending hbytes, hstop.le⟩
  · rintro ⟨a, r, s, b, hrest, hclobber⟩
    exact h.clear hnone ⟨req :: a, r, s, b, by rw [hrest]; rfl, hclobber⟩

/-- One round from the head of the loop or from the label. -/
theorem round_spec (hcs : 0 < cs) (atHead : Bool) (h : WalkInv cs raw f w (req :: rest))
    (hlabel : atHead = false → AtLabel w (req :: rest)) :
    RoundSpec cs raw f w rest.length
      (if atHead then w.bytes.length else w.bytes.length - 1)
      (round cs atHead w req rest) := by
  rw [round]
  by_cases hskip : atHead = true ∧ req.stop < w.offset
  · rw [if_pos hskip, hskip.1, if_pos rfl]
    have hmerge := mergePrev_spec h
    cases hp : w.prev with
    | none =>
      have hrun : mergePrev cs w req rest = (w, some req, rest, false) := by
        simp [mergePrev, hp]
      rw [hrun]
      exact ⟨f, h.skip hp hskip.2, .of_eq rfl rfl, rfl, le_rfl⟩
    | some p =>
      -- the previous request covers all of this one
      have hle := h.reaches p hp
      have hfreed := hmerge.covered p hp (by omega)
      obtain ⟨⟨v, src, rest', changed⟩, hrun⟩ : ∃ r, r = mergePrev cs w req rest := ⟨_, rfl⟩
      rw [← hrun] at hmerge hfreed ⊢
      obtain rfl : src = none := hfreed
      have hv : v.skip none = v := by simp [Walk.skip]
      simp only [hv]
      exact ⟨f, hmerge.inv, .of_eq hmerge.offset hmerge.bytes,
        hmerge.length, (congrArg List.length hmerge.bytes).le⟩
  · rw [if_neg hskip]
    cases atHead with
    | true =>
      apply visit_spec hcs h
      · by_contra hnot
        exact hskip ⟨rfl, by omega⟩
      · exact .inl le_rfl
    | false =>
      obtain ⟨hbytes, y, ys, hlist, hlt⟩ := hlabel rfl
      obtain ⟨rfl, -⟩ := List.cons.inj hlist
      have hlength := List.length_pos_iff.2 hbytes
      apply visit_spec hcs h
      · exact (hlt.trans_le (Nat.le_add_right _ _)).le
      · refine .inr ⟨?_, by simp only [Bool.false_eq_true, if_false]; omega⟩
        rintro (hempty | ⟨l, hl, hle⟩)
        · exact hbytes hempty
        · simp only [Option.some.injEq] at hl
          omega

/-- What the walk leaves: it has come to the end of the list, or the list is in
order and the bytes are queued or the cache is exhausted. -/
def WalkSpec (cs : ℕ) (raw f : SparseFile β) (w : Walk β)
    (r : Exit × Walk β × List (WriteRequest β)) : Prop :=
  ∃ g, Advances f w g r.2.1 ∧
    if r.1 = .ended then r.2.2 = [] ∧ WalkInv cs raw g r.2.1 []
    else ListInv cs raw g (r.2.1.front ++ r.2.2) r.2.1.fileSize ∧
      (r.1 = .finished → r.2.1.bytes = [])

/-- Every walk from a state that keeps the invariant comes to an end in one of
these ways. -/
theorem walk_spec (hcs : 0 < cs) (fuel : ℕ) (atHead : Bool)
    {todo : List (WriteRequest β)} (h : WalkInv cs raw f w todo)
    (hlabel : atHead = false → AtLabel w todo)
    (hfuel : todo.length + 2 * w.bytes.length + (if atHead then 1 else 0) <
      fuel) : WalkSpec cs raw f w (walk cs fuel atHead w todo) := by
  induction fuel generalizing f w todo atHead with
  | zero => omega
  | succ fuel ih =>
    cases todo with
    | nil => exact ⟨f, .of_eq rfl rfl, by simpa [walk] using h⟩
    | cons req rest =>
      have hround := round_spec hcs atHead h hlabel
      have hpositive : atHead = false → 0 < w.bytes.length :=
        fun hhead => List.length_pos_iff.2 (hlabel hhead).1
      rw [List.length_cons] at hfuel
      rw [walk]
      cases hr : round cs atHead w req rest with
      | next v todo =>
        rw [hr] at hround
        obtain ⟨g, hinv, hadv, hlength, hleft⟩ := hround
        obtain ⟨g', hadv', hrest⟩ := ih true hinv (by simp) (by
          cases atHead <;> simp at hfuel hleft hpositive ⊢ <;> omega)
        exact ⟨g', hadv.trans hadv', hrest⟩
      | again v todo =>
        rw [hr] at hround
        obtain ⟨g, hinv, hadv, hlength, hleft, hat⟩ := hround
        obtain ⟨g', hadv', hrest⟩ := ih false hinv (fun _ => hat) (by
          cases atHead <;> simp at hfuel hleft hpositive ⊢ <;> omega)
        exact ⟨g', hadv.trans hadv', hrest⟩
      | stop exit v todo =>
        rw [hr] at hround
        obtain ⟨g, hlist, hadv, hnot, hfinished⟩ := hround
        refine ⟨g, hadv, ?_⟩
        rw [if_neg hnot]
        exact ⟨hlist, hfinished⟩

end Rounds

section Whole

variable {cs : ℕ} {raw f : SparseFile β} {q : Queue β}

/-- What a write that holds the lock leaves: some of its bytes are queued, all
of them if it finishes, and the file is written as far. -/
def QueueSpec (cs : ℕ) (raw f : SparseFile β) (q : Queue β)
    (r : Exit × Queue β) : Prop :=
  ∃ g, Advances f (q.startAfter []) g (r.2.startAfter []) ∧
    ListInv cs raw g r.2.requests r.2.fileSize ∧
    r.1 ≠ .ended ∧ (r.1 = .finished → r.2.bytes = [])

theorem QueueSpec.of_walk {g : SparseFile β} {v : Walk β} {todo : List (WriteRequest β)}
    {exit : Exit} (hadv : Advances f (q.startAfter []) g v)
    (hlist : ListInv cs raw g (v.front ++ todo) v.fileSize) (hexit : exit ≠ .ended)
    (hfinished : exit = .finished → v.bytes = []) :
    QueueSpec cs raw f q (exit, .ofWalk v todo) :=
  ⟨g, hadv, hlist, hexit, hfinished⟩

/-- At the end of the list nothing is left to lie over anything. -/
theorem WalkInv.listInv_nil {w : Walk β} (h : WalkInv cs raw f w []) :
    ListInv cs raw f (w.front ++ []) w.fileSize := by
  refine ⟨h.shows, h.sound, ?_⟩
  rw [List.append_nil]
  exact h.front

/-- Requests in order end no later than the last one. -/
theorem stop_le_last {l : List (WriteRequest β)} {r : WriteRequest β}
    (horder : InOrder (l ++ [r])) : ∀ x ∈ l ++ [r], x.stop ≤ r.stop := by
  obtain ⟨-, -, hbefore⟩ := (Segments.ordered_append _).1 horder
  intro x hx
  cases List.mem_append.1 hx with
  | inl hx =>
    have hle : x.stop ≤ r.offset := hbefore x hx r (by simp)
    have hstop : r.stop = r.offset + r.count := rfl
    omega
  | inr hx =>
    obtain rfl : x = r := by simpa using hx
    exact le_rfl

theorem stop_le_lastOffset (horder : InOrder q.requests) :
    ∀ x ∈ q.requests, x.stop ≤ q.lastOffset := by
  intro x hx
  rw [Queue.lastOffset]
  cases hlast : q.requests.getLast? with
  | none =>
    rw [List.getLast?_eq_none_iff] at hlast
    simp [hlast] at hx
  | some r =>
    obtain ⟨l, hl⟩ := List.getLast?_eq_some_iff.1 hlast
    rw [hl] at horder hx
    exact stop_le_last horder x hx

/-- The invariant at the start of a walk over part of the list. -/
theorem ListInv.start {a b : List (WriteRequest β)}
    (h : ListInv cs raw f (a ++ b) q.fileSize) (hbytes : q.bytes ≠ [])
    (hbefore : ∀ x ∈ a, x.stop ≤ q.offset)
    (hclear : ¬Clobbers cs q.offset b) : WalkInv cs raw f (q.startAfter a) b :=
  .of_untouched rfl h hbytes hbefore hclear

theorem not_clobbers_nil (cs offset : ℕ) :
    ¬Clobbers cs offset ([] : List (WriteRequest β)) := by
  rintro ⟨a, r, s, b, h, -⟩
  simp at h

theorem not_clobbers_singleton (cs offset : ℕ) (r : WriteRequest β) :
    ¬Clobbers cs offset [r] := by
  rintro ⟨a, x, y, b, h, -⟩
  have hlength := congrArg List.length h
  simp only [List.length_append, List.length_cons, List.length_nil] at hlength
  omega

/-- Behind the last request the write is appended. -/
theorem fillLast_spec (h : ListInv cs raw f q.requests q.fileSize)
    (hbytes : q.bytes ≠ []) (hlast : q.lastOffset ≤ q.offset) :
    ∃ g, WalkInv cs raw g (q.fillLast cs) [] ∧
      Advances f (q.startAfter []) g (q.fillLast cs) := by
  have hstops : ∀ x ∈ q.requests, x.stop ≤ q.offset := fun x hx =>
    (stop_le_lastOffset h.order x hx).trans hlast
  have hwhole : ListInv cs raw f (q.requests ++ []) q.fileSize := by
    rw [List.append_nil]
    exact h
  have hplain := hwhole.start hbytes hstops (not_clobbers_nil cs q.offset)
  rw [Queue.fillLast]
  cases hreq : q.requests.getLast? with
  | none =>
    rw [List.getLast?_eq_none_iff] at hreq
    rw [hreq] at hplain
    exact ⟨f, hplain, .of_eq rfl rfl⟩
  | some req =>
    by_cases hroom : req.count < cs ∧ q.offset = req.stop ∧ ¬req.IsIp
    · dsimp only
      rw [if_pos hroom]
      obtain ⟨l, hl⟩ := List.getLast?_eq_some_iff.1 hreq
      have hdrop : q.requests.dropLast = l := by rw [hl]; simp
      rw [hl] at h hstops
      have hstart := h.start hbytes
        (fun x hx => hstops x (List.mem_append_left _ hx))
        (not_clobbers_singleton cs q.offset req)
      rw [hdrop]
      have hlo : req.offset ≤ q.offset := by
        rw [hroom.2.1]
        exact Nat.le_add_right _ _
      obtain ⟨g, hinv, hadv⟩ := hstart.update hbytes
        (fun p hp => by simp [Queue.startAfter] at hp) hroom.2.2 hlo
        hroom.2.1.le (.inr hroom.1)
        (updateRequest_spec cs hbytes hlo hroom.2.1.le)
      exact ⟨g, hinv, hadv⟩
    · simp only [hroom, if_false]
      exact ⟨f, hplain, .of_eq rfl rfl⟩

/-- The write behind the last request. -/
theorem append_spec (hcs : 0 < cs) (h : ListInv cs raw f q.requests q.fileSize)
    (hbytes : q.bytes ≠ []) (hlast : q.lastOffset ≤ q.offset) (fuel : ℕ) :
    QueueSpec cs raw f q (writeRequests cs (fuel + 1) q) := by
  obtain ⟨g, hinv, hadv⟩ := fillLast_spec h hbytes hlast
  have hshorter : (q.fillLast cs).bytes.length ≤ q.bytes.length := hadv.length_le
  obtain ⟨ok, v, g', hinsert, hspec⟩ := insertRequests_spec hcs none
    q.bytes.length hshorter hinv (by simp)
  have hblocked := hspec.blocked
  rw [writeRequests, if_pos hlast, hinsert]
  cases ok with
  | true =>
    apply QueueSpec.of_walk (hadv.trans hspec.advances) hspec.inv.listInv_nil
    · simp
    · intro _
      simpa [Blocked] using hblocked
  | false =>
    apply QueueSpec.of_walk (hadv.trans hspec.advances) hspec.inv.listInv_nil
    · simp
    · simp

/-- What is left at the end of the list belongs behind the last request. -/
theorem WalkInv.lastOffset_le {v : Walk β} (h : WalkInv cs raw f v [])
    (hleft : v.bytes ≠ []) :
    (Queue.ofWalk v []).lastOffset ≤ (Queue.ofWalk v []).offset := by
  rw [Queue.lastOffset]
  cases hreq : (Queue.ofWalk v []).requests.getLast? with
  | none => exact Nat.zero_le _
  | some r =>
    have hr := List.mem_of_getLast? hreq
    rw [Queue.ofWalk, List.append_nil] at hr
    exact h.pending hleft r hr

/-- A write that does not start between two requests that clobber it. -/
theorem writeRequests_clear (hcs : 0 < cs) (h : ListInv cs raw f q.requests q.fileSize)
    (hbytes : q.bytes ≠ []) (hclear : ¬Clobbers cs q.offset q.requests) (fuel : ℕ) :
    QueueSpec cs raw f q (writeRequests cs (fuel + 2) q) := by
  by_cases hlast : q.lastOffset ≤ q.offset
  · exact append_spec hcs h hbytes hlast (fuel + 1)
  have hstart := ListInv.start (a := []) h hbytes (by simp) hclear
  obtain ⟨g, hadv, hresult⟩ := walk_spec hcs
    (q.requests.length + 2 * q.bytes.length + 2) true hstart (by simp) (by
      simp [Queue.startAfter])
  rw [writeRequests, if_neg hlast]
  obtain ⟨⟨exit, v, todo⟩, hrun⟩ : ∃ r, r = walk cs
    (q.requests.length + 2 * q.bytes.length + 2) true (q.startAfter [])
      q.requests := ⟨_, rfl⟩
  rw [← hrun] at hadv hresult ⊢
  cases exit with
  | finished =>
    rw [if_neg (by simp)] at hresult
    exact .of_walk hadv hresult.1 (by simp) hresult.2
  | pressure =>
    rw [if_neg (by simp)] at hresult
    exact .of_walk hadv hresult.1 (by simp) (by simp)
  | ended =>
    rw [if_pos rfl] at hresult
    obtain ⟨htodo, hinv⟩ := hresult
    obtain rfl : todo = [] := htodo
    by_cases hdone : v.bytes = []
    · simp only [hdone, if_true]
      exact .of_walk hadv hinv.listInv_nil (by simp) fun _ => hdone
    · simp only [hdone, if_false]
      obtain ⟨g', hadv', hlist⟩ := append_spec (q := .ofWalk v []) hcs
        hinv.listInv_nil hdone (hinv.lastOffset_le hdone) fuel
      exact ⟨g', hadv.trans hadv', hlist⟩

end Whole

end AuroraLtfs.Sched
