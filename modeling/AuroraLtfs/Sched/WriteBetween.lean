import AuroraLtfs.Sched.WriteRounds

/-!
# Writes between two requests for the index partition

When a write starts exactly where one request for the index partition ends and
the next one starts, the walk first merges the two.  The list stays in order;
what becomes of the write depends on what lies behind the merged request and on
whether there is a cache block for it.
-/

namespace AuroraLtfs.Sched

open RequestState

variable {β : Type*}

section Merge

variable {cs : ℕ} {raw f : SparseFile β} {r s : WriteRequest β}
  {a b : List (WriteRequest β)} {fileSize : ℕ}

/-- Two neighbours of a list in order may be merged. -/
theorem ListInv.merge (h : ListInv cs raw f (a ++ r :: s :: b) fileSize)
    {m : Merged β} (hm : MergeSpec cs r s m) :
    ListInv cs raw f (a ++ m.dest :: (m.src.toList ++ b)) fileSize := by
  obtain ⟨ha, htail, hbefore⟩ := (Segments.ordered_append _).1 h.order
  obtain ⟨hr, hsb⟩ := (Segments.ordered_cons _).1 htail
  obtain ⟨hs, hb⟩ := (Segments.ordered_cons _).1 hsb
  have hrs : r.stop ≤ s.offset := hr s (by simp)
  have hsstop : s.stop = s.offset + s.count := rfl
  have hdest := hm.dest_stop
  have hleft := hm.left (h.sound s (by simp)).2
  have hshows := h.shows.merge hm none
  have hsound := h.sound.merge hm none
  -- nothing becomes ready
  rw [show WriteRequest.promote none = (id : WriteRequest β → WriteRequest β) from rfl,
    List.map_id, List.map_id] at hshows hsound
  refine ⟨hshows, hsound, ?_⟩
  · have hsrc : InOrder (m.src.toList ++ b) := by
      refine (Segments.ordered_append _).2 ⟨?_, hb, ?_⟩
      · cases m.src <;> simp [Segments.Ordered]
      · intro x hx y hy
        exact (hleft x hx).2.2.2.1.le.trans (hs y hy)
    refine (Segments.ordered_append _).2 ⟨ha, (Segments.ordered_cons _).2 ⟨?_, hsrc⟩, ?_⟩
    · intro y hy
      cases List.mem_append.1 hy with
      | inl hy => exact (hleft y hy).2.2.2.2
      | inr hy =>
        have hle : s.stop ≤ y.offset := hs y hy
        exact show m.dest.stop ≤ y.offset by omega
    · intro x hx y hy
      have hxr : x.stop ≤ r.offset := hbefore x hx r (by simp)
      have hxs : x.stop ≤ s.offset := hbefore x hx s (by simp)
      simp only [List.mem_cons, List.mem_append] at hy
      rcases hy with rfl | hy | hy
      · exact hxr.trans hm.start.ge
      · exact hxs.trans (hleft y hy).2.2.1
      · exact hbefore x hx y (by simp [hy])

/-- Requests for the index partition are never the ones that become ready. -/
theorem mergeRequests_promoted (hs : s.IsIp) : (mergeRequests cs r s).promoted = none := by
  have hcopy : (mergeCopy cs r s).promoted = none := by
    simp only [mergeCopy]
    split_ifs with hapart hroom
    · rfl
    · have hr : r.state = reqIp := by
        by_contra hr
        exact hapart ⟨fun heq => hr (heq.trans hs), .inr hs⟩
      simp only [updateRequest]
      split_ifs with hempty hfull
      · rfl
      · rw [hr] at hfull
        exact absurd hfull.1 (by simp)
      · rfl
    · rfl
  rw [mergeRequests]
  split
  · rfl
  · exact hcopy

/-- What merging two requests for the index partition does when the second
starts at the end of the first. -/
structure AdjacentSpec (cs : ℕ) (r s : WriteRequest β) (m : Merged β) :
    Prop where
  stop : m.dest.stop = r.offset + min cs (r.count + s.count)
  whole : r.count + s.count ≤ cs → m.src = none

theorem mergeRequests_adjacent (hr : r.IsIp) (hs : s.IsIp)
    (hat : r.stop = s.offset) (hroom : r.count < cs) (hpos : 0 < s.count) :
    AdjacentSpec cs r s (mergeRequests cs r s) := by
  have hrstop : r.stop = r.offset + r.count := rfl
  have hdata : s.data ≠ [] := List.length_pos_iff.1 hpos
  have hu := updateRequest_spec cs hdata (by omega : r.offset ≤ s.offset) hat.ge
  have hcopy : mergeCopy cs r s = updateRequest cs s.data s.offset r := by
    have hsame : ¬(r.state ≠ s.state ∧ (r.IsIp ∨ s.IsIp)) :=
      fun h => h.1 (hr.trans hs.symm)
    simp only [mergeCopy, if_neg hsame]
    rw [if_pos ⟨hroom, by omega⟩, hat, Nat.sub_self, List.drop_zero, Nat.add_zero]
  have hcopied := hu.copied
  have hcount := hu.count
  have hlength : s.data.length = s.count := rfl
  have hstop : (updateRequest cs s.data s.offset r).req.stop =
      (updateRequest cs s.data s.offset r).req.offset +
        (updateRequest cs s.data s.offset r).req.count := rfl
  have hnot : ¬r.stop < s.offset := by omega
  constructor
  · simp only [mergeRequests, if_neg hnot, hcopy]
    rw [hstop, hu.start, hcount]
    omega
  · intro hfits
    simp only [mergeRequests, if_neg hnot, hcopy]
    rw [if_neg (by omega), if_neg (by omega)]

end Merge

section Walk

variable {cs : ℕ} {w : Walk β} {r s : WriteRequest β}
  {rest : List (WriteRequest β)}

theorem insertRequests_blocked {limit : Option ℕ} (h : Blocked limit w)
    (fuel : ℕ) : insertRequests cs limit fuel w = (true, w) := by
  cases fuel with
  | zero => rfl
  | succ fuel => rw [insertRequests, if_pos h]

/-- Requests that end before the write are left behind. -/
theorem walk_skip (q : Queue β) (fuel : ℕ) {a : List (WriteRequest β)}
    (hbefore : ∀ x ∈ a, x.stop < q.offset) (skipped todo : List (WriteRequest β)) :
    walk cs (a.length + fuel) true (q.startAfter skipped) (a ++ todo) =
      walk cs fuel true (q.startAfter (skipped ++ a)) todo := by
  induction a generalizing skipped with
  | nil => simp
  | cons x a ih =>
    have hround : round cs true (q.startAfter skipped) x (a ++ todo) =
        .next (q.startAfter (skipped ++ [x])) (a ++ todo) := by
      have hx : x.stop < (q.startAfter skipped).offset := hbefore x (by simp)
      rw [round, if_pos ⟨rfl, hx⟩]
      rfl
    rw [List.length_cons, Nat.add_right_comm, List.cons_append, walk, hround]
    dsimp only
    rw [ih (fun y hy => hbefore y (by simp [hy]))]
    simp

/-- A request for the index partition that ends where the write starts becomes
the previous one. -/
theorem round_ends (hprev : w.prev = none) (hr : r.IsIp)
    (hstop : r.stop = w.offset) (hbytes : w.bytes ≠ []) :
    round cs true w r rest = .next (w.pass r) rest := by
  have hblocked : Blocked (some r.offset) w := .inr ⟨_, rfl, hstop ▸ Nat.le_add_right _ _⟩
  have hoverlap : overlap cs w r rest = .next (w.pass r) rest := by
    have hle : r.offset ≤ r.stop := Nat.le_add_right _ _
    rw [overlap, if_neg (by omega), if_neg (fun h => h.1 hr), if_neg (by omega)]
  rw [round, if_neg (by simp [hstop]), visit, insertRequests_blocked hblocked]
  simp [mergePrev, hprev, hbytes, hoverlap]

/-- The walk stops in front of a request behind the write when there is no
cache block. -/
theorem visit_exhausted (hbytes : w.bytes ≠ []) (hafter : w.offset < r.offset)
    (hblocks : w.blocks = 0) : visit cs w r rest = .stop .pressure w (r :: rest) := by
  have hopen : ¬Blocked (some r.offset) w := by
    rintro (hempty | ⟨l, hl, hle⟩)
    · exact hbytes hempty
    · obtain rfl : r.offset = l := by simpa using hl
      omega
  have hinsert : insertRequests cs (some r.offset) w.bytes.length w = (false, w) := by
    obtain ⟨n, hn⟩ := Nat.exists_eq_succ_of_ne_zero (List.length_pos_iff.2 hbytes).ne'
    rw [hn, insertRequests, if_neg hopen, if_pos hblocks]
  rw [visit, hinsert]

/-- The request that starts where the write starts is merged into the previous
one before the write is looked at. -/
theorem round_merges {q : Queue β} {a : List (WriteRequest β)}
    (hs : s.IsIp) (hoffset : s.offset = q.offset) (hbytes : q.bytes ≠ [])
    (hreached : (mergeRequests cs r s).reached ≤ q.fileSize) :
    round cs true ((q.startAfter a).pass r) s rest =
      match (mergeRequests cs r s).src with
      | none => .next ((q.startAfter a).pass (mergeRequests cs r s).dest) rest
      | some t => overlap cs
          ((q.startAfter a).pass (mergeRequests cs r s).dest) t rest := by
  have hkeep : (WriteRequest.promote none : WriteRequest β → WriteRequest β) = id := rfl
  have hprev : mergePrev cs ((q.startAfter a).pass r) s rest =
      ((q.startAfter a).pass (mergeRequests cs r s).dest,
        (mergeRequests cs r s).src, rest, (mergeRequests cs r s).changed) := by
    simp [mergePrev, Walk.pass, Walk.promote, Walk.growTo, Queue.startAfter,
      mergeRequests_promoted hs, hkeep, not_lt.2 hreached]
  have hblocked : Blocked (some s.offset) ((q.startAfter a).pass r) :=
    .inr ⟨_, rfl, hoffset.le⟩
  have hnot : ¬s.stop < ((q.startAfter a).pass r).offset :=
    not_lt.2 (hoffset.ge.trans (Nat.le_add_right _ _))
  have hleft : ((q.startAfter a).pass (mergeRequests cs r s).dest).bytes ≠ [] := hbytes
  rw [round, if_neg (by simp [hnot]), visit, insertRequests_blocked hblocked]
  dsimp only
  rw [hprev]
  cases (mergeRequests cs r s).src with
  | none => rfl
  | some t => simp [hleft]

end Walk

section Between

variable {cs : ℕ} {raw f : SparseFile β} {q : Queue β}

/-- The bytes of the second of two adjacent requests for the index partition
are merged in front of the write that starts between them, and the write is
queued behind them: there is a cache block for it, and part of the second
request or another request comes after it. -/
def Garbles (cs : ℕ) (q : Queue β) : Prop :=
  q.blocks ≠ 0 ∧ ∃ a r s b, q.requests = a ++ r :: s :: b ∧
    r.IsIp ∧ s.IsIp ∧ r.stop = q.offset ∧ s.offset = q.offset ∧
    r.count < cs ∧ (b ≠ [] ∨ cs < r.count + s.count)

/-- The write starts where a request for the index partition ends and the next
one starts, and the first has room for bytes of the second. -/
structure Meets (cs : ℕ) (q : Queue β) (a : List (WriteRequest β))
    (r s : WriteRequest β) (b : List (WriteRequest β)) : Prop where
  split : q.requests = a ++ r :: s :: b
  left : r.IsIp
  right : s.IsIp
  stop : r.stop = q.offset
  offset : s.offset = q.offset
  room : r.count < cs

/-- The walk when it has merged the two requests. -/
def joined (cs : ℕ) (q : Queue β) (a : List (WriteRequest β))
    (r s : WriteRequest β) : Walk β :=
  (q.startAfter a).pass (mergeRequests cs r s).dest

namespace Meets

variable {a b : List (WriteRequest β)} {r s : WriteRequest β}
  (hmeets : Meets cs q a r s b) (h : ListInv cs raw f q.requests q.fileSize)

include hmeets h

/-- The requests that end before the two do not reach the write. -/
theorem before : ∀ x ∈ a, x.stop < q.offset := by
  have horder := h.order
  rw [hmeets.split] at horder
  obtain ⟨-, -, hbefore⟩ := (Segments.ordered_append _).1 horder
  have hpos := (h.sound r (by simp [hmeets.split])).1.1
  have hrstop : r.stop = r.offset + r.count := rfl
  have hstop := hmeets.stop
  intro x hx
  have hle : x.stop ≤ r.offset := hbefore x hx r (by simp)
  omega

theorem mergeSpec : MergeSpec cs r s (mergeRequests cs r s) := by
  have hrstop : r.stop = r.offset + r.count := rfl
  have hstop := hmeets.stop
  have hoffset := hmeets.offset
  exact mergeRequests_spec (h.sound r (by simp [hmeets.split])).1
    (h.sound s (by simp [hmeets.split])).1 (by omega)

theorem adjacent : AdjacentSpec cs r s (mergeRequests cs r s) :=
  mergeRequests_adjacent hmeets.left hmeets.right
    (hmeets.stop.trans hmeets.offset.symm) hmeets.room
    (h.sound s (by simp [hmeets.split])).1.1

/-- What the merge leaves of the list shows the file. -/
theorem list :
    ListInv cs raw f (a ++ (mergeRequests cs r s).dest ::
      ((mergeRequests cs r s).src.toList ++ b)) q.fileSize := by
  have hspec := hmeets.mergeSpec h
  rw [hmeets.split] at h
  exact h.merge hspec

/-- The merged request reaches beyond the start of the write. -/
theorem reaches : q.offset < (mergeRequests cs r s).dest.stop := by
  have hstop := (hmeets.adjacent h).stop
  have hpos := (h.sound s (by simp [hmeets.split])).1.1
  have hrstop : r.stop = r.offset + r.count := rfl
  have hroom := hmeets.room
  have hat := hmeets.stop
  omega

/-- What comes next in the list lies behind the start of the write. -/
theorem behind : ∀ y ∈ (mergeRequests cs r s).src.toList ++ b, q.offset < y.offset := by
  obtain ⟨-, htail, -⟩ := (Segments.ordered_append _).1 (hmeets.list h).order
  obtain ⟨hdest, -⟩ := (Segments.ordered_cons _).1 htail
  intro y hy
  have hle : (mergeRequests cs r s).dest.stop ≤ y.offset := hdest y hy
  have hreaches := hmeets.reaches h
  omega

theorem lastOffset_lt : ¬q.lastOffset ≤ q.offset := by
  have hlast := stop_le_lastOffset h.order s (by simp [hmeets.split])
  have hpos := (h.sound s (by simp [hmeets.split])).1.1
  have hsstop : s.stop = s.offset + s.count := rfl
  have hoffset := hmeets.offset
  omega

/-- The walk skips what ends before the write, makes the first of the two the
previous request, and merges the second into it. -/
theorem walk_joins (hbytes : q.bytes ≠ []) :
    ∃ n, walk cs (q.requests.length + 2 * q.bytes.length + 2) true
        (q.startAfter []) q.requests =
      walk cs (n + 2) (mergeRequests cs r s).src.isNone (joined cs q a r s)
        ((mergeRequests cs r s).src.toList ++ b) := by
  have hreached : (mergeRequests cs r s).reached ≤ q.fileSize :=
    (hmeets.mergeSpec h).reached.trans
      ((hmeets.list h).shows.within _ (by simp))
  have hbehind := hmeets.behind h
  have hlength : q.requests.length + 2 * q.bytes.length + 2 =
      a.length + (b.length + 2 * q.bytes.length + 2 + 1 + 1) := by
    rw [hmeets.split]
    simp only [List.length_append, List.length_cons]
    omega
  refine ⟨b.length + 2 * q.bytes.length, ?_⟩
  rw [hlength, hmeets.split, walk_skip q _ (hmeets.before h), List.nil_append,
    walk, round_ends rfl hmeets.left hmeets.stop hbytes]
  dsimp only
  rw [walk, round_merges hmeets.right hmeets.offset hbytes hreached]
  cases hsrc : (mergeRequests cs r s).src with
  | none => rfl
  | some t =>
    rw [hsrc] at hbehind
    have ht : (joined cs q a r s).offset < t.offset := hbehind t (by simp)
    have hoverlap : overlap cs (joined cs q a r s) t b =
        .again (joined cs q a r s) (t :: b) := by
      rw [overlap, if_pos ht]
    rw [joined] at hoverlap
    dsimp only
    rw [hoverlap]
    rfl

/-- When nothing comes behind the merged request, the write starts over with a
list in which no request starts where it starts. -/
theorem writeRequests_joins (hbytes : q.bytes ≠ [])
    (hlast : (mergeRequests cs r s).src.toList ++ b = []) (fuel : ℕ) :
    writeRequests cs (fuel + 1) q =
      writeRequests cs fuel (.ofWalk (joined cs q a r s) []) := by
  obtain ⟨n, hwalk⟩ := hmeets.walk_joins h hbytes
  have hleft : (joined cs q a r s).bytes ≠ [] := hbytes
  rw [writeRequests, if_neg (hmeets.lastOffset_lt h), hwalk, hlast]
  simp only [walk, hleft, if_false]

theorem joined_clear :
    ¬Clobbers cs (Queue.ofWalk (joined cs q a r s) []).offset
      (Queue.ofWalk (joined cs q a r s) []).requests := by
  rintro ⟨a', x, y, b', heq, -, -, -, hy, -⟩
  have hmem : y ∈ a ++ [(mergeRequests cs r s).dest] := by
    have hrequests : (Queue.ofWalk (joined cs q a r s) []).requests =
        a ++ [(mergeRequests cs r s).dest] := by
      simp [Queue.ofWalk, joined, Walk.pass, Walk.front, Queue.startAfter]
    rw [← hrequests, heq]
    simp
  have hyoffset : y.offset = q.offset := hy
  have hystop : y.stop = y.offset + y.count := rfl
  cases List.mem_append.1 hmem with
  | inl hy =>
    have hstop := hmeets.before h y hy
    omega
  | inr hy =>
    obtain rfl : y = (mergeRequests cs r s).dest := by simpa using hy
    have hstart := (hmeets.mergeSpec h).start
    have hpos := (h.sound r (by simp [hmeets.split])).1.1
    have hrstop : r.stop = r.offset + r.count := rfl
    have hat := hmeets.stop
    omega

/-- The list that the write starts over with shows the same file. -/
theorem joined_list (hlast : (mergeRequests cs r s).src.toList ++ b = []) :
    ListInv cs raw f (Queue.ofWalk (joined cs q a r s) []).requests
      (Queue.ofWalk (joined cs q a r s) []).fileSize := by
  have hlist := hmeets.list h
  rw [hlast] at hlist
  simpa [Queue.ofWalk, joined, Walk.pass, Walk.front, Queue.startAfter] using hlist

/-- Without a cache block the walk stops in front of what comes next. -/
theorem writeRequests_stops (hbytes : q.bytes ≠ []) (hblocks : q.blocks = 0)
    (hmore : (mergeRequests cs r s).src.toList ++ b ≠ []) (fuel : ℕ) :
    writeRequests cs (fuel + 1) q = (.pressure, .ofWalk (joined cs q a r s)
      ((mergeRequests cs r s).src.toList ++ b)) := by
  obtain ⟨n, hwalk⟩ := hmeets.walk_joins h hbytes
  have hbehind := hmeets.behind h
  rw [writeRequests, if_neg (hmeets.lastOffset_lt h), hwalk]
  obtain ⟨y, ys, htodo⟩ := List.exists_cons_of_ne_nil hmore
  rw [htodo] at hbehind ⊢
  have hy : (joined cs q a r s).offset < y.offset := hbehind y (by simp)
  have hstop : y.offset ≤ y.stop := Nat.le_add_right _ _
  have hround : round cs (mergeRequests cs r s).src.isNone (joined cs q a r s) y
      ys = .stop .pressure (joined cs q a r s) (y :: ys) := by
    rw [round, if_neg (by rintro ⟨-, hlt⟩; omega)]
    exact visit_exhausted hbytes hy hblocks
  rw [walk, hround]

end Meets

theorem writeRequests_between (hcs : 0 < cs) (h : ListInv cs raw f q.requests q.fileSize)
    (hbytes : q.bytes ≠ []) {a b : List (WriteRequest β)} {r s : WriteRequest β}
    (hmeets : Meets cs q a r s b)
    (hharmless : q.blocks = 0 ∨ b = [] ∧ r.count + s.count ≤ cs) (fuel : ℕ) :
    QueueSpec cs raw f q (writeRequests cs (fuel + 3) q) := by
  have hadv : Advances f (q.startAfter []) f (joined cs q a r s) := .of_eq rfl rfl
  by_cases hlast : (mergeRequests cs r s).src.toList ++ b = []
  · rw [hmeets.writeRequests_joins h hbytes hlast]
    obtain ⟨g, hadv', hrest⟩ := writeRequests_clear hcs (hmeets.joined_list h hlast)
      hbytes (hmeets.joined_clear h) fuel
    exact ⟨g, hadv.trans hadv', hrest⟩
  · have hblocks : q.blocks = 0 := by
      refine hharmless.resolve_right fun hfits => hlast ?_
      simp [(hmeets.adjacent h).whole hfits.2, hfits.1]
    rw [hmeets.writeRequests_stops h hbytes hblocks hlast]
    refine .of_walk hadv ?_ (by simp) (by simp)
    simpa [joined, Walk.pass, Walk.front, Queue.startAfter] using hmeets.list h

/-- What `unified_write` does to the request list in one go. -/
theorem writeRequests_spec (hcs : 0 < cs) (h : ListInv cs raw f q.requests q.fileSize)
    (hbytes : q.bytes ≠ []) (hclean : ¬Garbles cs q) (fuel : ℕ) :
    QueueSpec cs raw f q (writeRequests cs (fuel + 3) q) := by
  by_cases hclobbers : Clobbers cs q.offset q.requests
  · obtain ⟨a, r, s, b, hsplit, hr, hs, hstop, hoffset, hroom⟩ := hclobbers
    refine writeRequests_between hcs h hbytes
      ⟨hsplit, hr, hs, hstop, hoffset, hroom⟩ ?_ fuel
    by_contra hharmful
    apply hclean
    rw [not_or, not_and_or, not_le] at hharmful
    exact ⟨hharmful.1, a, r, s, b, hsplit, hr, hs, hstop, hoffset, hroom, hharmful.2⟩
  · exact writeRequests_clear hcs h hbytes hclobbers (fuel + 1)

end Between

end AuroraLtfs.Sched
