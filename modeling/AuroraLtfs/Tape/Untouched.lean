import AuroraLtfs.Tape.Device

/-!
# Commands that leave the medium alone

Locates, reads and the commands for the cartridge memory write no record.  The
medium stays what it was, also between any two of them: every medium they add to
the history is that one.
-/

namespace AuroraLtfs.Tape

variable {π : Type*}

/-- No command since has changed the medium. -/
structure Untouched (d e : Device π) : Prop where
  medium : e.medium = d.medium
  history : ∀ m ∈ e.history, m = d.medium ∨ m ∈ d.history

namespace Untouched

theorem refl (d : Device π) : Untouched d d :=
  ⟨rfl, fun _ hm => .inr hm⟩

theorem trans {d e f : Device π} (hde : Untouched d e) (hef : Untouched e f) :
    Untouched d f where
  medium := hef.medium.trans hde.medium
  history := by
    intro m hm
    rcases hef.history m hm with heq | hmem
    · exact .inl (heq.trans hde.medium)
    · exact hde.history m hmem

/-- Only the medium and the history count. -/
theorem of_eq {d e : Device π} (hmedium : e.medium = d.medium)
    (hhistory : e.history = d.history) : Untouched d e :=
  ⟨hmedium, fun _ hm => .inr (hhistory ▸ hm)⟩

theorem issue (d : Device π) : Untouched d (d.issue d.medium) where
  medium := rfl
  history := by
    intro m hm
    exact List.mem_cons.1 hm

theorem noteLocateWarning (d : Device π) (warning : Warning) :
    Untouched d (d.noteLocateWarning warning) := by
  apply of_eq (Device.noteLocateWarning_medium d warning)
  rw [Device.noteLocateWarning]
  split
  · rfl
  · cases warning <;> rfl

end Untouched

theorem tapeSeek_untouched (p : Part) (target : Target) (d : Device π) :
    Untouched d (tapeSeek p target d).2 := by
  rw [tapeSeek]
  split
  · exact .refl d
  · cases d.answer with
    | failed e residue => exact .issue d
    | done warning =>
      apply (Untouched.issue d).trans
      apply Untouched.trans _ (.noteLocateWarning _ warning)
      exact .of_eq rfl rfl

theorem tapeRead_untouched (d : Device π) : Untouched d (tapeRead d).2 := by
  have hnext : Untouched d ((d.issue d.medium).moveTo
      ⟨d.position.partition, d.position.block + 1⟩) :=
    (Untouched.issue d).trans (.of_eq rfl rfl)
  rw [tapeRead]
  cases d.answer with
  | failed e residue => exact .issue d
  | done warning =>
    rcases (d.medium d.position.partition)[d.position.block]? with
      _ | _ | payload
    · exact .issue d
    · exact hnext
    · exact hnext

theorem tapeGetCartVolumeLockStatus_untouched (d : Device π) :
    Untouched d (tapeGetCartVolumeLockStatus d).2 := by
  rw [tapeGetCartVolumeLockStatus]
  cases d.answer with
  | failed e residue => exact .issue d
  | done warning => exact .issue d

end AuroraLtfs.Tape
