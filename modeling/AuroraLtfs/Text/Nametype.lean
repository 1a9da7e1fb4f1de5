import AuroraLtfs.Text.Pathname

/-!
# Names in an index

A name that holds a colon or a control character is written percent encoded, with an
attribute that says so; every other name is written as it is.  Decoding turns a slash
into an underscore, as no name may hold one.  Symlink targets hold slashes, and the
encoder leaves them: a target that needs encoding comes back with its slashes replaced.
-/

namespace AuroraLtfs.Text

open Fs

def percent : UInt8 := 0x25

def underscore : UInt8 := 0x5F

/-- `struct ltfs_name` -/
structure LtfsName where
  name : List UInt8
  percentEncode : Bool

/-- A colon, or a control character that is no white space. -/
def needsPercent (c : UInt8) : Bool :=
  c = 0x3A || (c ≤ 0x1F && c ≠ 0x09 && c ≠ 0x0A && c ≠ 0x0D)

def fsIsPercentEncodeRequired (name : List UInt8) : Bool :=
  name.any needsPercent

/-- A name as the namespace operations store it. -/
def ltfsName (name : List UInt8) : LtfsName where
  name := name
  percentEncode := fsIsPercentEncodeRequired name

/-! ## Encoding -/

/-- `plain_chars`: the printable characters without `%` and `:` -/
def plainChars : List UInt8 :=
  ([0x21, 0x22, 0x23, 0x24, 0x26, 0x60] ++ List.range' 0x27 19 ++
    List.range' 0x3B 68).map UInt8.ofNat

/-- A digit of `%02X` -/
def hexDigit (n : ℕ) : UInt8 :=
  UInt8.ofNat (if n < 10 then 0x30 + n else 0x37 + n)

def escape (b : UInt8) : List UInt8 :=
  [percent, hexDigit (b.toNat / 16), hexDigit (b.toNat % 16)]

/-- What is written for one character. -/
def encodeCharacter (bytes : List UInt8) : List UInt8 :=
  match bytes with
  | b :: _ => if b ∈ plainChars then [b] else bytes.flatMap escape
  | [] => []

/-- The encoded name, or nothing if the name is no UTF-8. -/
def encodeEntryName (name : List UInt8) : Option (List UInt8) :=
  if name = [] then some []
  else match _hnext : Utf8.next name with
    | none => none
    | some (_, bytes, rest) =>
      (encodeEntryName rest).map (encodeCharacter bytes ++ ·)
  termination_by name.length
  decreasing_by exact Utf8.next_length _hnext

/-! ## Decoding -/

def hexValue (c : UInt8) : Option ℕ :=
  if 0x30 ≤ c ∧ c ≤ 0x39 then some (c.toNat - 0x30)
  else if 0x41 ≤ c ∧ c ≤ 0x46 then some (c.toNat - 0x41 + 10)
  else if 0x61 ≤ c ∧ c ≤ 0x66 then some (c.toNat - 0x61 + 10)
  else none

/-- `strtol` with base 16 on two characters, as a byte: white space or a sign may
stand before the digits, and what follows them is left. -/
def strtolHex (a b : UInt8) : UInt8 :=
  if (9 ≤ a ∧ a ≤ 13) ∨ a = 0x20 ∨ a = 0x2B then UInt8.ofNat ((hexValue b).getD 0)
  else if a = 0x2D then 0 - UInt8.ofNat ((hexValue b).getD 0)
  else match hexValue a, hexValue b with
    | some x, some y => UInt8.ofNat (16 * x + y)
    | some x, none => UInt8.ofNat x
    | none, _ => 0

/-- A slash cannot be part of a name. -/
def replaceSlash (c : UInt8) : UInt8 :=
  if c = slash then underscore else c

/-- The loop of `decode_entry_name`; `encoded` says that a `%` has been read. -/
def decodeLoop (encoded : Bool) : List UInt8 → List UInt8
  | [] => []
  | [c] => [replaceSlash c]
  | a :: b :: rest =>
    if a = percent ∧ rest ≠ [] then decodeLoop true (b :: rest)
    else if encoded then
      let c := strtolHex a b
      -- an escaped slash or null character is left as it is
      if c = slash ∨ c = 0 then percent :: a :: replaceSlash b :: decodeLoop false rest
      else c :: decodeLoop false rest
    else replaceSlash a :: decodeLoop false (b :: rest)

def decodeEntryName (name : List UInt8) : List UInt8 :=
  decodeLoop false name

/-! ## The element of a name -/

/-- `_xml_write_nametype`: the `percentencoded` attribute and the text, or nothing if
the element cannot be written. -/
def xmlWriteNametype (n : LtfsName) : Option (Bool × List UInt8) :=
  if n.percentEncode then (encodeEntryName n.name).map (true, ·)
  else some (false, n.name)

/-- The name is normalized and then checked. -/
def xmlParseName (validate : List UInt8 → Except NameError Unit) (nfc : Nfc)
    (value : List UInt8) : Except NameError (List UInt8) :=
  match pathnameNormalize nfc value with
  | .error e => .error e
  | .ok name => (validate name).map fun _ => name

def xmlParseFilename (nfc : Nfc) (value : List UInt8) : Except NameError (List UInt8) :=
  xmlParseName pathnameValidateFile nfc value

def xmlParseTarget (nfc : Nfc) (value : List UInt8) : Except NameError (List UInt8) :=
  xmlParseName pathnameValidateTarget nfc value

/-- `_xml_parse_nametype`.  An element without text is refused. -/
def xmlParseNametype (nfc : Nfc) (target percentencoded : Bool) (text : List UInt8) :
    Except NameError (List UInt8) :=
  if text = [] then .error .xmlEmpty
  else
    let decoded := if percentencoded then decodeEntryName text else text
    if target then xmlParseTarget nfc decoded else xmlParseFilename nfc decoded

/-! ## Decoding what has been encoded -/

variable {b : UInt8}

theorem decodeLoop_plain (hb : b ≠ percent) (rest : List UInt8) :
    decodeLoop false (b :: rest) = replaceSlash b :: decodeLoop false rest := by
  cases rest with
  | nil => rfl
  | cons c rest => simp [decodeLoop, hb]

theorem decodeLoop_escape (hslash : b ≠ slash) (hzero : b ≠ 0) (rest : List UInt8) :
    decodeLoop false (escape b ++ rest) = b :: decodeLoop false rest := by
  have hdigits : ∀ b : UInt8, hexDigit (b.toNat / 16) ≠ percent ∧
      strtolHex (hexDigit (b.toNat / 16)) (hexDigit (b.toNat % 16)) = b := by
    decide +kernel
  obtain ⟨hne, hvalue⟩ := hdigits b
  simp [escape, decodeLoop, hne, hvalue, hslash, hzero]

theorem decodeLoop_escapes {bytes : List UInt8}
    (h : ∀ b ∈ bytes, b ≠ slash ∧ b ≠ 0) (rest : List UInt8) :
    decodeLoop false (bytes.flatMap escape ++ rest) =
      bytes ++ decodeLoop false rest := by
  induction bytes with
  | nil => rfl
  | cons b bytes ih =>
    obtain ⟨hslash, hzero⟩ := h b (by simp)
    rw [List.flatMap_cons, List.append_assoc, decodeLoop_escape hslash hzero,
      ih fun c hc => h c (by simp [hc]), List.cons_append]

theorem map_replaceSlash_eq_self_iff (bytes : List UInt8) :
    bytes.map replaceSlash = bytes ↔ slash ∉ bytes := by
  have hne : ∀ c : UInt8, replaceSlash c = c ↔ slash ≠ c := by decide +kernel
  induction bytes with
  | nil => simp
  | cons b bytes ih => simp [ih, hne]

theorem plainChars_ascii (h : b ∈ plainChars) : ¬0x80 ≤ b ∧ b ≠ percent := by
  have hall : ∀ b ∈ plainChars, ¬0x80 ≤ b ∧ b ≠ percent := by decide +kernel
  exact hall b h

/-- Bytes that are escaped come back as they are. -/
theorem decodeLoop_escaped {bytes : List UInt8} (hb : b ∉ plainChars)
    (hslash : slash ∉ b :: bytes) (hzero : 0 ∉ b :: bytes) (rest : List UInt8) :
    decodeLoop false (encodeCharacter (b :: bytes) ++ rest) =
      (b :: bytes).map replaceSlash ++ decodeLoop false rest := by
  rw [encodeCharacter, if_neg hb, (map_replaceSlash_eq_self_iff _).2 hslash]
  refine decodeLoop_escapes (fun c hc => ⟨?_, ?_⟩) rest
  · rintro rfl
    exact hslash hc
  · rintro rfl
    exact hzero hc

theorem decodeLoop_encodeCharacter {code : ℕ} {bytes : List UInt8}
    (h : Utf8.IsCharacter code bytes) (hzero : 0 ∉ bytes) (rest : List UInt8) :
    decodeLoop false (encodeCharacter bytes ++ rest) =
      bytes.map replaceSlash ++ decodeLoop false rest := by
  rcases h with ⟨a, -, rfl, -⟩ | ⟨hne, hhigh⟩
  · by_cases ha : a ∈ plainChars
    · rw [encodeCharacter, if_pos ha]
      exact decodeLoop_plain (plainChars_ascii ha).2 rest
    · refine decodeLoop_escaped ha ?_ hzero rest
      -- a slash is plain
      have hslash : slash ∈ plainChars := by decide +kernel
      rintro hmem
      exact ha (List.mem_singleton.1 hmem ▸ hslash)
  · cases bytes with
    | nil => exact absurd rfl hne
    | cons b bytes =>
      refine decodeLoop_escaped ?_ ?_ hzero rest
      · exact fun hb => (plainChars_ascii hb).1 (hhigh b (by simp))
      · exact fun hmem => absurd (hhigh slash hmem) (by decide)

variable {name : List UInt8}

theorem encodeEntryName_of_next {bytes rest : List UInt8} {code : ℕ}
    (hnext : Utf8.next name = some (code, bytes, rest)) :
    encodeEntryName name = (encodeEntryName rest).map (encodeCharacter bytes ++ ·) := by
  have hname : name ≠ [] := by
    rintro rfl
    cases hnext
  rw [encodeEntryName, if_neg hname]
  split
  · next heq => cases hnext.symm.trans heq
  · next heq =>
      cases hnext.symm.trans heq
      rfl

/-- Decoding gives the name back, with its slashes replaced. -/
theorem decodeEntryName_encode (h : Utf8.WellFormed name) (hzero : 0 ∉ name) :
    ∃ text, encodeEntryName name = some text ∧
      decodeEntryName text = name.map replaceSlash := by
  induction h with
  | nil => exact ⟨[], by rw [encodeEntryName, if_pos rfl], rfl⟩
  | cons hnext _ ih =>
    obtain ⟨rfl, hcharacter⟩ := Utf8.next_eq_some hnext
    simp only [List.mem_append, not_or] at hzero
    obtain ⟨text, htext, hdecode⟩ := ih hzero.2
    refine ⟨_, by rw [encodeEntryName_of_next hnext, htext]; rfl, ?_⟩
    rw [decodeEntryName] at hdecode ⊢
    rw [decodeLoop_encodeCharacter hcharacter hzero.1, hdecode, List.map_append]

theorem wellFormed_of_encode {text : List UInt8} (h : encodeEntryName name = some text) :
    Utf8.WellFormed name := by
  fun_induction encodeEntryName name generalizing text with
  | case1 => exact .nil
  | case2 => cases h
  | case3 name _ code bytes rest hnext ih =>
    obtain ⟨encoded, hencoded, -⟩ := Option.map_eq_some_iff.1 h
    exact .cons hnext (ih hencoded)

/-! ## Names that are accepted -/

/-- Where a name stands. -/
inductive NameKind
  | file
  | target
  | key
  deriving DecidableEq

variable (nfc : Nfc)

/-- What the namespace operations accept.  File names and keys are normalized before they
are checked, and a part of a normalized text is normalized.  Behind its `user.` a key may
be empty.  A symlink target is taken as it is. -/
def Accepted (kind : NameKind) (name : List UInt8) : Prop :=
  0 ∉ name ∧ (kind = .file → name ≠ []) ∧
    (kind ≠ .target → nfc.map name = name ∧ pathnameValidateFile name = .ok ())

/-- The name is read from an index as it was before it was written.  Targets and keys are
read alike. -/
def RoundTrips (kind : NameKind) (name : List UInt8) : Prop :=
  ∃ percentencoded text, xmlWriteNametype (ltfsName name) = some (percentencoded, text) ∧
    xmlParseNametype nfc (kind ≠ .file) percentencoded text = .ok name

/-- A name that is read back as it is. -/
def Readable (kind : NameKind) (name : List UInt8) : Prop :=
  nfc.map name = name ∧
    if kind = .file then pathnameValidateFile name = .ok ()
    else pathnameValidateTarget name = .ok ()

variable {nfc} {kind : NameKind}

theorem pathnameValidateFile_ok (h : pathnameValidateFile name = .ok ()) :
    pathnameValidate false name = .ok () := by
  rw [pathnameValidateFile] at h
  split at h
  · cases h
  · exact h

theorem Readable.wellFormed (h : Readable nfc kind name) : Utf8.WellFormed name := by
  have hvalid := h.2
  split at hvalid
  · exact (pathnameValidate_ok (pathnameValidateFile_ok hvalid)).1
  · exact (pathnameValidate_ok hvalid).1

theorem xmlParseName_eq_ok_iff {validate : List UInt8 → Except NameError Unit}
    {value : List UInt8} :
    xmlParseName validate nfc value = .ok name ↔
      Utf8.WellFormed value ∧ nfc.map value = name ∧ validate name = .ok () := by
  by_cases hwell : Utf8.WellFormed value
  · have hparse : xmlParseName validate nfc value =
        (validate (nfc.map value)).map fun _ => nfc.map value := by
      simp [xmlParseName, pathnameNormalize, hwell]
    rw [hparse]
    cases hvalid : validate (nfc.map value) with
    | error e =>
      refine iff_of_false (fun h => by cases h) ?_
      rintro ⟨-, rfl, hok⟩
      cases hvalid.symm.trans hok
    | ok =>
      constructor
      · intro h
        cases h
        exact ⟨hwell, rfl, hvalid⟩
      · rintro ⟨-, rfl, -⟩
        rfl
  · simp [xmlParseName, pathnameNormalize, hwell]

/-- What is read from a text that is not empty. -/
theorem xmlParseNametype_eq_ok_iff {percentencoded : Bool} {text : List UInt8}
    (htext : text ≠ []) :
    xmlParseNametype nfc (kind ≠ .file) percentencoded text = .ok name ↔
      Utf8.WellFormed (if percentencoded then decodeEntryName text else text) ∧
        nfc.map (if percentencoded then decodeEntryName text else text) = name ∧
        if kind = .file then pathnameValidateFile name = .ok ()
        else pathnameValidateTarget name = .ok () := by
  rw [xmlParseNametype, if_neg htext]
  by_cases hkind : kind = .file
  · simp [hkind, xmlParseFilename, xmlParseName_eq_ok_iff]
  · simp [hkind, xmlParseTarget, xmlParseName_eq_ok_iff]

theorem roundTrips_iff_of_plain (h : fsIsPercentEncodeRequired name = false) :
    RoundTrips nfc kind name ↔ name ≠ [] ∧ Readable nfc kind name := by
  have hwrite : xmlWriteNametype (ltfsName name) = some (false, name) := by
    simp [xmlWriteNametype, ltfsName, h]
  rw [RoundTrips, hwrite]
  constructor
  · rintro ⟨percentencoded, text, heq, hparse⟩
    cases heq
    have hname : name ≠ [] := by
      rintro rfl
      cases hparse
    obtain ⟨-, hmap, hvalid⟩ := (xmlParseNametype_eq_ok_iff hname).1 hparse
    exact ⟨hname, hmap, hvalid⟩
  · rintro ⟨hname, hreadable⟩
    exact ⟨false, name, rfl, (xmlParseNametype_eq_ok_iff hname).2
      ⟨hreadable.wellFormed, hreadable.1, hreadable.2⟩⟩

theorem roundTrips_iff_of_required (hzero : 0 ∉ name)
    (h : fsIsPercentEncodeRequired name = true) :
    RoundTrips nfc kind name ↔ Readable nfc kind name ∧ slash ∉ name := by
  have hwrite : xmlWriteNametype (ltfsName name) =
      (encodeEntryName name).map (true, ·) := by
    simp [xmlWriteNametype, ltfsName, h]
  have hname : name ≠ [] := by
    rintro rfl
    cases h
  -- the text of a name that is not empty is not empty
  have hne : ∀ text, decodeEntryName text = name.map replaceSlash → text ≠ [] := by
    rintro text hdecode rfl
    exact hname (List.map_eq_nil_iff.1 hdecode.symm)
  rw [RoundTrips, hwrite]
  constructor
  · rintro ⟨percentencoded, text, hsome, hparse⟩
    obtain ⟨text', htext, heq⟩ := Option.map_eq_some_iff.1 hsome
    cases heq
    obtain ⟨text'', htext', hdecode⟩ :=
      decodeEntryName_encode (wellFormed_of_encode htext) hzero
    cases htext.symm.trans htext'
    obtain ⟨-, hmap, hvalid⟩ := (xmlParseNametype_eq_ok_iff (hne _ hdecode)).1 hparse
    rw [if_pos rfl, hdecode] at hmap
    -- the decoded text holds no slash, nor does what it is normalized to
    have hslash : slash ∉ name := by
      rw [← hmap]
      intro hmem
      obtain ⟨c, -, hc⟩ := List.mem_map.1 (nfc.slash_of_map _ hmem)
      have hnever : ∀ c : UInt8, replaceSlash c ≠ slash := by decide +kernel
      exact hnever c hc
    rw [(map_replaceSlash_eq_self_iff name).2 hslash] at hmap
    exact ⟨⟨hmap, hvalid⟩, hslash⟩
  · rintro ⟨hreadable, hslash⟩
    obtain ⟨text, htext, hdecode⟩ := decodeEntryName_encode hreadable.wellFormed hzero
    refine ⟨true, text, by rw [htext]; rfl, ?_⟩
    rw [xmlParseNametype_eq_ok_iff (hne _ hdecode), if_pos rfl, hdecode,
      (map_replaceSlash_eq_self_iff name).2 hslash]
    exact ⟨hreadable.wellFormed, hreadable⟩

/-- What may stand in a file name may stand in a target. -/
theorem pathnameValidate_target (h : pathnameValidate false name = .ok ()) :
    pathnameValidateTarget name = .ok () := by
  rw [pathnameValidateTarget]
  fun_induction pathnameValidate false name with
  | case1 => rw [pathnameValidate, if_pos rfl]
  | case2 => cases h
  | case3 => cases h
  | case4 name hname c bytes rest hnext hvalid ih =>
    rw [pathnameValidate, if_neg hname]
    split
    · next heq => cases hnext.symm.trans heq
    · next heq =>
        cases hnext.symm.trans heq
        rw [if_neg (by simp_all)]
        exact ih h

theorem Accepted.readable (h : Accepted nfc kind name) (hkind : kind ≠ .target) :
    Readable nfc kind name ∧ slash ∉ name := by
  obtain ⟨hmap, hvalid⟩ := h.2.2 hkind
  have hchecked := pathnameValidateFile_ok hvalid
  refine ⟨⟨hmap, ?_⟩, (pathnameValidate_ok hchecked).2 rfl⟩
  split
  · exact hvalid
  · exact pathnameValidate_target hchecked

/-- File names come back, and keys that are not empty.  A symlink target does if it is
not empty, is normalized UTF-8 without the characters that are refused, and has no slash
if it has to be encoded. -/
theorem nametype_roundTrips_iff {kind : NameKind} {name : List UInt8}
    (h : Accepted nfc kind name) :
    RoundTrips nfc kind name ↔ name ≠ [] ∧ (kind = .target →
      nfc.map name = name ∧ pathnameValidateTarget name = .ok () ∧
        (fsIsPercentEncodeRequired name = true → slash ∉ name)) := by
  have hreadable : Readable nfc kind name ↔ (kind = .target →
      nfc.map name = name ∧ pathnameValidateTarget name = .ok ()) := by
    by_cases hkind : kind = .target
    · simp [Readable, hkind]
    · simp [hkind, (h.readable hkind).1]
  cases hrequired : fsIsPercentEncodeRequired name with
  | false =>
    rw [roundTrips_iff_of_plain hrequired, hreadable]
    simp
  | true =>
    have hname : name ≠ [] := by
      rintro rfl
      cases hrequired
    rw [roundTrips_iff_of_required h.1 hrequired, hreadable]
    by_cases hkind : kind = .target
    · simp [hkind, hname, and_assoc]
    · simp [hkind, hname, (h.readable hkind).2]

/-- No text is changed, as with ASCII. -/
def asciiNfc : Nfc where
  map name := name
  slash_of_map _ h := h

/-- The file name `50%:` -/
theorem nametype_roundTrips_iff_colon :
    Accepted asciiNfc .file [0x35, 0x30, 0x25, 0x3A] ∧
      RoundTrips asciiNfc .file [0x35, 0x30, 0x25, 0x3A] := by
  have haccepted : Accepted asciiNfc .file [0x35, 0x30, 0x25, 0x3A] := by
    have hlength : pathnameStrlen [0x35, 0x30, 0x25, 0x3A] = 4 := by decide +kernel
    refine ⟨by simp, by simp, fun _ => ⟨rfl, ?_⟩⟩
    simp [pathnameValidateFile, pathnameValidate, Utf8.next, pathnameValidInXml,
      hlength, ltfsFilenameMax]
  refine ⟨haccepted, (nametype_roundTrips_iff haccepted).2 ⟨by simp, fun hkind => ?_⟩⟩
  cases hkind

/-- The target `/a:b` comes back as `_a:b`.  The target `FF`, which is no UTF-8, one that
is not normalized, and the empty key do not come back. -/
theorem nametype_target_loses_slash :
    ((∀ nfc, Accepted nfc .target [0x2F, 0x61, 0x3A, 0x62] ∧
        ¬RoundTrips nfc .target [0x2F, 0x61, 0x3A, 0x62]) ∧
      xmlWriteNametype (ltfsName [0x2F, 0x61, 0x3A, 0x62]) =
        some (true, [0x2F, 0x61, 0x25, 0x33, 0x41, 0x62]) ∧
      xmlParseNametype asciiNfc true true [0x2F, 0x61, 0x25, 0x33, 0x41, 0x62] =
        .ok [0x5F, 0x61, 0x3A, 0x62]) ∧
    (∀ nfc, Accepted nfc .target [0xFF] ∧ ¬RoundTrips nfc .target [0xFF]) ∧
    (∀ (nfc : Nfc) (name : List UInt8), 0 ∉ name → nfc.map name ≠ name →
      Accepted nfc .target name ∧ ¬RoundTrips nfc .target name) ∧
    (∀ nfc, nfc.map [] = [] → Accepted nfc .key [] ∧ ¬RoundTrips nfc .key []) := by
  have htarget : ∀ (nfc : Nfc) {name : List UInt8}, 0 ∉ name → Accepted nfc .target name :=
    fun nfc name hzero => ⟨hzero, by simp, fun h => absurd rfl h⟩
  have hwrite : xmlWriteNametype (ltfsName [0x2F, 0x61, 0x3A, 0x62]) =
      some (true, [0x2F, 0x61, 0x25, 0x33, 0x41, 0x62]) := by
    have hplain : 0x2F ∈ plainChars ∧ 0x61 ∈ plainChars ∧ 0x3A ∉ plainChars ∧
        0x62 ∈ plainChars := by decide +kernel
    simp [xmlWriteNametype, ltfsName, fsIsPercentEncodeRequired, needsPercent,
      encodeEntryName, Utf8.next, encodeCharacter, hplain, escape, hexDigit, percent]
  refine ⟨⟨fun nfc => ⟨htarget nfc (by simp), fun h => ?_⟩, hwrite, ?_⟩,
    fun nfc => ⟨htarget nfc (by simp), fun h => ?_⟩,
    fun nfc name hzero hmap => ⟨htarget nfc hzero, fun h => ?_⟩,
    fun nfc hmap => ⟨?_, fun h => ?_⟩⟩
  · exact ((roundTrips_iff_of_required (by simp) (by decide +kernel)).1 h).2 (by decide)
  · have hdecode : decodeEntryName [0x2F, 0x61, 0x25, 0x33, 0x41, 0x62] =
        [0x5F, 0x61, 0x3A, 0x62] := by decide +kernel
    change xmlParseNametype asciiNfc (NameKind.target ≠ .file) true _ = _
    refine (xmlParseNametype_eq_ok_iff (by simp)).2 ⟨?_, ?_, ?_⟩
    · rw [if_pos rfl, hdecode, ← Utf8.valid_iff]
      decide +kernel
    · rw [if_pos rfl, hdecode]
      rfl
    · simp [pathnameValidateTarget, pathnameValidate, Utf8.next, pathnameValidInXml]
  · have hreadable := ((roundTrips_iff_of_plain (by decide +kernel)).1 h).2
    have hwell := Utf8.valid_iff.2 hreadable.wellFormed
    revert hwell
    decide +kernel
  · cases hrequired : fsIsPercentEncodeRequired name with
    | false => exact hmap ((roundTrips_iff_of_plain hrequired).1 h).2.1
    | true => exact hmap ((roundTrips_iff_of_required hzero hrequired).1 h).1.1
  · refine ⟨by simp, by simp, fun _ => ⟨hmap, ?_⟩⟩
    rw [pathnameValidateFile, if_neg (by decide), pathnameValidate, if_pos rfl]
  · exact ((roundTrips_iff_of_plain rfl).1 h).1 rfl

end AuroraLtfs.Text
