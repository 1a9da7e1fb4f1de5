import AuroraLtfs.Lib.Utf8
import AuroraLtfs.Fs.Dentry

/-!
# Checking names

The checks that file names, extended attribute names and symlink targets pass before
they become part of an index.  Control characters are allowed: a name that holds one
is written percent encoded.
-/

namespace AuroraLtfs.Text

open Fs

/-- The codes the checks return. -/
inductive NameError
  | icuError
  | invalidPath
  | nameTooLong
  | xmlEmpty
  deriving DecidableEq

def slash : UInt8 := 0x2F

def pathnameValidInXml (c : ℕ) : Bool :=
  !(c = 0 || (0xD800 ≤ c && c ≤ 0xDFFF) || c = 0xFFFE || c = 0xFFFF)

def pathnameValidate (allowSlash : Bool) (name : List UInt8) : Except NameError Unit :=
  if name = [] then .ok ()
  else match _hnext : Utf8.next name with
    | none => .error .icuError
    | some (c, _, rest) =>
      if pathnameValidInXml c = false ∨ (allowSlash = false ∧ c = 0x2F) then
        .error .invalidPath
      else pathnameValidate allowSlash rest
  termination_by name.length
  decreasing_by exact Utf8.next_length _hnext

def pathnameValidateFile (name : List UInt8) : Except NameError Unit :=
  if ltfsFilenameMax < pathnameStrlen name then .error .nameTooLong
  else pathnameValidate false name

def pathnameValidateTarget (name : List UInt8) : Except NameError Unit :=
  pathnameValidate true name

/-- Normalization form C, as the Unicode library computes it for UTF-8.  No characters
are composed into a slash. -/
structure Nfc where
  map : List UInt8 → List UInt8
  slash_of_map : ∀ name, slash ∈ map name → slash ∈ name

def pathnameNormalize (nfc : Nfc) (name : List UInt8) : Except NameError (List UInt8) :=
  if Utf8.WellFormed name then .ok (nfc.map name) else .error .icuError

/-- A name that is checked is UTF-8, and has no slash unless that is allowed. -/
theorem pathnameValidate_ok {allowSlash : Bool} {name : List UInt8}
    (h : pathnameValidate allowSlash name = .ok ()) :
    Utf8.WellFormed name ∧ (allowSlash = false → slash ∉ name) := by
  fun_induction pathnameValidate allowSlash name with
  | case1 => exact ⟨.nil, fun _ => by simp⟩
  | case2 => cases h
  | case3 => cases h
  | case4 name _ c bytes rest hnext hvalid ih =>
    obtain ⟨hrest, hslash⟩ := ih h
    refine ⟨.cons hnext hrest, fun hallow hmem => ?_⟩
    obtain ⟨rfl, hcharacter⟩ := Utf8.next_eq_some hnext
    -- a slash is a character of its own, and was refused
    have hbytes : slash ∈ bytes := (List.mem_append.1 hmem).resolve_right (hslash hallow)
    rcases hcharacter with ⟨a, -, rfl, rfl⟩ | ⟨-, hhigh⟩
    · obtain rfl : slash = a := by simpa using hbytes
      exact hvalid (.inr ⟨hallow, rfl⟩)
    · exact absurd (hhigh slash hbytes) (by decide)

end AuroraLtfs.Text
