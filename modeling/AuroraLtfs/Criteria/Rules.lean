import AuroraLtfs.Lib.Strtoull
import AuroraLtfs.Text.Nametype

/-!
# Placement rules

`index_criteria_parse` reads the rules that choose the files of the index partition: a
text of options `name=` and `size=`, separated by slashes.  The functions below follow
the source; a text is the bytes of a string without its end.
-/

namespace AuroraLtfs.Criteria

open Text Strtoull

inductive RuleError
  | policyInvalid
  | policyEmptyRule
  | pattern (error : NameError)
  deriving DecidableEq

/-- The parsed fields of `struct index_criteria` -/
structure IndexCriteria where
  maxFilesizeCriteria : ℕ
  globPatterns : List LtfsName

def colon : UInt8 := 0x3A

/-- The option `name=` -/
def nameOption : List UInt8 := [0x6E, 0x61, 0x6D, 0x65, 0x3D]

/-- The option `size=` -/
def sizeOption : List UInt8 := [0x73, 0x69, 0x7A, 0x65, 0x3D]

def toLower (c : UInt8) : UInt8 :=
  if 0x41 ≤ c ∧ c ≤ 0x5A then c + 0x20 else c

/-- `strncasecmp` with an option and its length. -/
def startsWith (option str : List UInt8) : Bool :=
  (str.take option.length).map toLower = option

def isOption (str : List UInt8) : Bool :=
  startsWith nameOption str || startsWith sizeOption str

/-- The loop over the separators. -/
def invalidAfterSeparator : List UInt8 → Bool
  | [] => false
  | c :: str =>
    if c = slash then !isOption str || invalidAfterSeparator str
    else invalidAfterSeparator str

def indexCriteriaContainsInvalidOptions (str : List UInt8) : Bool :=
  str.length < 5 || !isOption str || invalidAfterSeparator (str.drop 1)

/-- The walk to the first option behind a separator. -/
def walkToOption (substr : List UInt8) : List UInt8 → Option (List UInt8)
  | [] => none
  | c :: str =>
    if c = slash ∧ startsWith substr str then some str else walkToOption substr str

/-- What `index_criteria_find_option` returns; `duplicated` is a return of false with the
error flag set. -/
inductive Found
  | missing
  | duplicated
  | option (text : List UInt8)

/-- `index_criteria_find_option`.  The search goes on behind the option it has found, which
is refused if there is one more; the flag of that search is not looked at. -/
def indexCriteriaFindOption (substr : List UInt8) : ℕ → List UInt8 → Found
  | 0, _ => .missing
  | rounds + 1, str =>
    if str.length < 5 then .missing
    else
      let start := if startsWith substr str then some str else walkToOption substr str
      match start with
      | none => .missing
      | some start =>
        match indexCriteriaFindOption substr rounds (start.dropWhile (· ≠ slash)) with
        | .option _ => .duplicated
        | _ => .option (start.takeWhile (· ≠ slash))

/-! ## The option `size=` -/

def adjacentLetters : List UInt8 → Bool
  | a :: b :: rule => (isAlpha a && isAlpha b) || adjacentLetters (b :: rule)
  | _ => false

def multiplier (last : UInt8) : Option ℕ :=
  if last = 0x6B ∨ last = 0x4B then some 1024
  else if last = 0x6D ∨ last = 0x4D then some (1024 * 1024)
  else if last = 0x67 ∨ last = 0x47 then some (1024 * 1024 * 1024)
  else none

/-- The number of a rule without its suffix, multiplied in 64 bits. -/
def sizeNumber (rule : List UInt8) (multiplier : ℕ) : Except RuleError ℕ :=
  match rule with
  | [] => .error .policyInvalid
  | c :: _ =>
    if isDigit c then .ok ((strtoull rule).1 * multiplier % 2 ^ 64)
    else .error .policyInvalid

/-- `index_criteria_parse_size`.  For an empty rule the source looks at the byte before its
buffer; whatever that is, the rule is refused. -/
def indexCriteriaParseSize (criteria : List UInt8) : Except RuleError ℕ :=
  let rule := criteria.drop 5
  if adjacentLetters rule then .error .policyInvalid
  else match rule.getLast? with
    | none => .error .policyInvalid
    | some last =>
      if isAlpha last then
        match multiplier last with
        | none => .error .policyInvalid
        | some multiplier => sizeNumber rule.dropLast multiplier
      else sizeNumber rule 1

/-! ## The option `name=` -/

/-- The loop that counts the rules: a colon behind a colon or at the end leaves an empty
rule. -/
def emptyRule (before : UInt8) : List UInt8 → Bool
  | [] => false
  | c :: rest => (c = colon && (before = colon || rest = [])) || emptyRule c rest

/-- The loop that stores the rules; `rule` is the part of the current one that has been
passed. -/
def assignRules (rule : List UInt8) : List UInt8 → List (List UInt8)
  | [] => []
  | c :: rest =>
    if c = colon then rule :: assignRules [] rest
    else if rest = [] then [rule ++ [c]]
    else assignRules (rule ++ [c]) rest

def validateRules : List (List UInt8) → Except RuleError Unit
  | [] => .ok ()
  | rule :: rules =>
    match pathnameValidateFile rule with
    | .error e => .error (.pattern e)
    | .ok () => validateRules rules

/-- `index_criteria_parse_name`.  The loop that counts the rules starts at the second byte
of the rules; if there are none, that is behind the end of the string, at bytes that
nothing has been stored in: `junk` is what it finds there. -/
def indexCriteriaParseName (junk criteria : List UInt8) :
    Except RuleError (List LtfsName) :=
  let value := criteria.drop 5
  let empty :=
    match value with
    | [] => emptyRule 0 junk
    | c :: rest => c = colon || emptyRule c rest
  if empty then .error .policyEmptyRule
  else
    let rules := assignRules [] value
    let rules := if rules = [] then [value] else rules
    match validateRules rules with
    | .error e => .error e
    | .ok () => .ok (rules.map ltfsName)

/-- `index_criteria_parse` of a text that is given. -/
def indexCriteriaParse (junk filterrules : List UInt8) : Except RuleError IndexCriteria :=
  if indexCriteriaContainsInvalidOptions filterrules then .error .policyInvalid
  else
    let names : Except RuleError (Option (List LtfsName)) :=
      match indexCriteriaFindOption nameOption (filterrules.length + 2) filterrules with
      | .option criteria => (indexCriteriaParseName junk criteria).map some
      | .duplicated => .error .policyInvalid
      | .missing => .ok none
    match names with
    | .error e => .error e
    | .ok names =>
      match indexCriteriaFindOption sizeOption (filterrules.length + 2) filterrules with
      | .option criteria =>
        (indexCriteriaParseSize criteria).map fun size => ⟨size, names.getD []⟩
      | .duplicated => .error .policyInvalid
      | .missing =>
        if names.isSome then .error .policyInvalid else .ok ⟨0, []⟩

end AuroraLtfs.Criteria
