import AuroraLtfs.Tape.Append
import AuroraLtfs.Tape.Space

/-!
# Calls that write at the append position

A function that writes records behind one another at the append position of a
partition has written all of them when it succeeds, and has kept everything below
where it started whatever becomes of it.  `Writes` says this of one call; calls in
sequence write their records in sequence (`Writes.trans`).
-/

namespace AuroraLtfs.Tape

variable {π : Type*} {p : Part} {rs : List (Record π)}

/-- The call writes `rs` at the append position of `p`; `ok` says that it got to
the end. -/
structure Writes (p : Part) (rs : List (Record π)) (d : Device π) (ok : Prop)
    (next : Device π) : Prop where
  grows : d.Grows next
  done : ok → next.medium = d.medium.write p (d.appendEnd p) rs ∧
    next.AtAppend p ∧ next.appendEnd p = d.appendEnd p + rs.length

section Writes

variable {d mid next : Device π} {ok : Prop} {more : List (Record π)}

theorem Writes.append (h : Writes p rs d False next) (more : List (Record π)) :
    Writes p (rs ++ more) d False next :=
  ⟨h.grows, False.elim⟩

theorem Writes.congr {ok' : Prop} (h : Writes p rs d ok next)
    (himp : ok' → ok) : Writes p rs d ok' next :=
  ⟨h.grows, fun hok => h.done (himp hok)⟩

theorem Writes.trans (hsane : d.Sane) (hfirst : Writes p rs d True mid)
    (hnext : Writes p more mid ok next) : Writes p (rs ++ more) d ok next := by
  have hpos := Device.appendEnd_le_length hsane p
  obtain ⟨hmedium, -, hend⟩ := hfirst.done trivial
  refine ⟨hfirst.grows.trans hnext.grows, fun hok => ?_⟩
  obtain ⟨hmedium', hat, hend'⟩ := hnext.done hok
  refine ⟨?_, hat, ?_⟩
  · rw [hmedium', hmedium, hend, write_write _ hpos]
  · rw [hend', hend, List.length_append, add_assoc]

theorem Writes.rests (hsane : d.Sane) (hmedium : next.medium = d.medium)
    (happend : next.appendPos = d.appendPos) (hposition : next.position = d.position)
    (hat : d.AtAppend p) : Writes p [] d ok next := by
  have hend : next.appendEnd p = d.appendEnd p := by
    simp [Device.appendEnd, hmedium, happend]
  refine ⟨.of_eq hsane hmedium happend, fun _ => ⟨?_, ?_, ?_⟩⟩
  · rw [hmedium, Medium.write_nil]
  · rw [Device.AtAppend, hend, hposition]
    exact hat
  · rw [hend, List.length_nil, add_zero]

end Writes

/-! ## The write commands -/

section Commands

variable {d mid : Device π}

/-- A write command keeps what lies below the append position, however much of its
records it leaves behind. -/
theorem backendWrite_grows (hsane : d.Sane) (hat : d.AtAppend p)
    (rs : List (Record π)) : d.Grows (backendWrite rs d).2 := by
  have hposition : d.position = ⟨p, d.appendEnd p⟩ := hat
  have htail : ∀ (next : Device π) (tail : List (Record π)),
      next.medium = Function.update d.medium p
        ((d.medium p).take (d.appendEnd p) ++ tail) →
      next.appendPos = d.appendPos → d.Grows next := by
    intro next tail hmedium happend
    exact .of_tail hsane tail hmedium (.inl (congrFun happend p))
      fun q _ => congrFun happend q
  have hwrite : ∀ next : Device π,
      next.medium = d.medium.write p (d.appendEnd p) rs →
      next.appendPos = d.appendPos → d.Grows next := by
    intro next hmedium happend
    rw [Medium.write] at hmedium
    split_ifs at hmedium
    · exact .of_eq hsane hmedium happend
    · exact htail next rs hmedium happend
  rw [backendWrite]
  cases d.answer with
  | done warning => exact hwrite _ (by simp [hposition]) rfl
  | failed e residue =>
    have hfailed : (noteWriteError e (d.issue (residueMedium residue rs d))).medium =
          residueMedium residue rs d ∧
        (noteWriteError e (d.issue (residueMedium residue rs d))).appendPos =
          d.appendPos := by
      rw [noteWriteError]
      split_ifs <;> exact ⟨rfl, rfl⟩
    obtain ⟨hmedium, happend⟩ := hfailed
    dsimp only
    generalize noteWriteError e (d.issue (residueMedium residue rs d)) = next
      at hmedium happend ⊢
    cases residue with
    | untouched => exact .of_eq hsane hmedium happend
    | cut =>
      rw [residueMedium, hposition] at hmedium
      split_ifs at hmedium
      · exact .of_eq hsane hmedium happend
      · refine htail _ [] (hmedium.trans ?_) happend
        rw [Medium.cut, List.append_nil]
    | written =>
      rw [residueMedium, hposition] at hmedium
      exact hwrite _ hmedium happend

/-- `rs` has been recorded at the append position of `p`, which has not been
moved yet. -/
structure Recorded (p : Part) (rs : List (Record π)) (d mid : Device π) : Prop where
  grows : d.Grows mid
  medium : mid.medium = d.medium.write p (d.appendEnd p) rs
  appendPos : mid.appendPos = d.appendPos
  position : mid.position = ⟨p, d.appendEnd p + rs.length⟩

/-- An empty write behind it only synchronises. -/
theorem Recorded.sync (h : Recorded p rs d mid) :
    Recorded p rs d (backendWrite [] mid).2 := by
  obtain ⟨hmedium, happend, hposition⟩ := backendWrite_nil mid
  exact ⟨h.grows.trans (.of_eq h.grows.sane hmedium happend),
    hmedium.trans h.medium, happend.trans h.appendPos, hposition.trans h.position⟩

/-- A call that ends there has failed. -/
theorem Recorded.failed (h : Recorded p rs d mid) (e : TapeError) :
    Writes p rs d ((.error e : Except TapeError Unit) = .ok ()) mid :=
  ⟨h.grows, fun hok => by simp at hok⟩

/-- Taking over the position. -/
theorem Recorded.finish (hsane : d.Sane) (h : Recorded p rs d mid)
    (warning : Warning) (ignoreLess ignoreNospc : Bool) (ok : Prop) :
    Writes p rs d ok (finishWrite warning ignoreLess ignoreNospc mid).2 := by
  obtain ⟨hgrows, hat⟩ := finishWrite_grows hsane h.medium h.appendPos h.position
    warning ignoreLess ignoreNospc
  refine ⟨hgrows, fun _ => ⟨?_, hat, ?_⟩⟩
  · simp [finishWrite, h.medium]
  · have hsame : (finishWrite warning ignoreLess ignoreNospc mid).2.position =
        ⟨p, d.appendEnd p + rs.length⟩ := by
      simp [finishWrite, h.position]
    have hblock := hat.symm.trans hsame
    simpa using congrArg Position.block hblock

/-- A call that starts with a write command at the append position. -/
theorem backendWrite_andThen (hsane : d.Sane) (hat : d.AtAppend p)
    (rs : List (Record π)) {next : Warning → Device π → TapeCall (Device π) Unit}
    (hnext : ∀ warning mid, Recorded p rs d mid →
      Writes p rs d ((next warning mid).1 = .ok ()) (next warning mid).2) :
    Writes p rs d (((backendWrite rs d).andThen next).1 = .ok ())
      ((backendWrite rs d).andThen next).2 := by
  have hgrows := backendWrite_grows hsane hat rs
  apply Outcome.andThen_elim (motive := fun r : TapeCall (Device π) Unit =>
    Writes p rs d (r.1 = .ok ()) r.2)
  · intro e mid hmid
    rw [hmid] at hgrows
    exact ⟨hgrows, fun h => by simp at h⟩
  · intro warning mid hmid
    rw [hmid] at hgrows
    obtain ⟨hmedium, happend, hposition⟩ := backendWrite_eq_ok hmid
    rw [show d.position = ⟨p, d.appendEnd p⟩ from hat] at hmedium hposition
    exact hnext warning mid ⟨hgrows, hmedium, happend, hposition⟩

/-- A refused write leaves everything as it is. -/
theorem Writes.refused (hsane : d.Sane) (e : TapeError) :
    Writes p rs d ((.error e : Except TapeError Unit) = .ok ()) d :=
  ⟨.refl hsane, fun h => by simp at h⟩

theorem tapeWrite_writes (hsane : d.Sane) (hat : d.AtAppend p)
    (payload : π) (ignoreLess ignoreNospc : Bool) :
    Writes p [.block payload] d
      ((tapeWrite payload ignoreLess ignoreNospc d).1 = .ok ())
      (tapeWrite payload ignoreLess ignoreNospc d).2 := by
  rw [tapeWrite]
  split
  · exact .refused hsane _
  · exact backendWrite_andThen hsane hat _
      fun _ _ hmid => hmid.finish hsane _ _ _ _

theorem tapeWriteFilemark_writes (hsane : d.Sane)
    (hat : d.AtAppend p) (count : ℕ) (ignoreLess ignoreNospc immed : Bool) :
    Writes p (List.replicate count .filemark) d
      ((tapeWriteFilemark count ignoreLess ignoreNospc immed d).1 = .ok ())
      (tapeWriteFilemark count ignoreLess ignoreNospc immed d).2 := by
  rw [tapeWriteFilemark]
  split
  · exact .refused hsane _
  · apply backendWrite_andThen hsane hat
    intro _ mid hmid
    split_ifs
    · have hsync := hmid.sync
      apply Outcome.andThen_elim (motive := fun r : TapeCall (Device π) Unit =>
        Writes p (List.replicate count .filemark) d (r.1 = .ok ()) r.2)
      · intro e last hlast
        rw [hlast] at hsync
        exact hsync.failed e
      · intro _ last hlast
        rw [hlast] at hsync
        exact hsync.finish hsane _ _ _ _
    · exact hmid.finish hsane _ _ _ _

/-- A block that was written at the append position is the last one there. -/
theorem tapeWrite_eq_ok {next : Device π} {payload : π}
    {ignoreLess ignoreNospc : Bool} (hsane : d.Sane) (hat : d.AtAppend p)
    (h : tapeWrite payload ignoreLess ignoreNospc d = (.ok (), next)) :
    next.AtAppend p ∧ next.appendEnd p = d.appendEnd p + 1 ∧
      (next.medium p)[d.appendEnd p]? = some (.block payload) := by
  have hwrites := tapeWrite_writes hsane hat payload ignoreLess ignoreNospc
  rw [h] at hwrites
  obtain ⟨hmedium, hnext, hend⟩ := hwrites.done rfl
  refine ⟨hnext, hend, ?_⟩
  rw [hmedium, Medium.write_same _ _ _ (by simp)]
  simp [Device.appendEnd_le_length hsane p]

end Commands

end AuroraLtfs.Tape
