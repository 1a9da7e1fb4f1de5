import AuroraLtfs.Criteria.Options

/-!
# The texts that are accepted

A rule text should be one option `size=` with a number, and at most one option `name=`
with patterns.  Every such text is accepted for what it says.  The parser accepts more:
options that occur three times, numbers with something behind their digits, numbers that
do not fit in 64 bits, and an option `name=` without patterns.
-/

namespace AuroraLtfs.Criteria

open Text Strtoull

/-! ## Sizes -/

/-- A decimal number with an optional suffix, of value `n` in 64 bits -/
def SizeText (value : List UInt8) (n : ℕ) : Prop :=
  n < 2 ^ 64 ∧ ∃ digits, digits ≠ [] ∧ (∀ c ∈ digits, isDigit c = true) ∧
    ((value = digits ∧ n = decimal digits) ∨
      ∃ suffix m, multiplier suffix = some m ∧ value = digits ++ [suffix] ∧
        n = decimal digits * m)

/-- What the parser takes for a size -/
structure LooseSize (value : List UInt8) : Prop where
  digit : ∃ c rest, value = c :: rest ∧ isDigit c = true
  letters : adjacentLetters value = false
  last : ∀ last, value.getLast? = some last → isAlpha last = true →
    ∃ m, multiplier last = some m

theorem isAlpha_of_multiplier {c : UInt8} {m : ℕ} (h : multiplier c = some m) :
    isAlpha c = true ∧ 1 ≤ m := by
  unfold multiplier at h
  split_ifs at h with hk hm hg
  · obtain rfl := Option.some.inj h
    rcases hk with rfl | rfl <;> decide
  · obtain rfl := Option.some.inj h
    rcases hm with rfl | rfl <;> decide
  · obtain rfl := Option.some.inj h
    rcases hg with rfl | rfl <;> decide

/-- Digits and one more character have no two letters in a row. -/
theorem adjacentLetters_digits {digits : List UInt8} (h : ∀ c ∈ digits, isDigit c = true)
    {rest : List UInt8} (hrest : rest.length ≤ 1) : adjacentLetters (digits ++ rest) = false := by
  induction digits with
  | nil =>
    match rest, hrest with
    | [], _ => rfl
    | [_], _ => rfl
  | cons c digits ih =>
    obtain ⟨hc, hdigits⟩ := List.forall_mem_cons.mp h
    have ih := ih hdigits
    rw [List.cons_append]
    cases hmore : digits ++ rest with
    | nil => rfl
    | cons d more =>
      rw [hmore] at ih
      rw [adjacentLetters, ih, not_isAlpha_of_isDigit c hc]
      rfl

theorem sizeNumber_digits {digits : List UInt8} (hne : digits ≠ [])
    (h : ∀ c ∈ digits, isDigit c = true) {m : ℕ} (hm : 1 ≤ m)
    (hfits : decimal digits * m < 2 ^ 64) :
    sizeNumber digits m = .ok (decimal digits * m) := by
  cases digits with
  | nil => exact absurd rfl hne
  | cons c digits =>
    have hall : (c :: digits).takeWhile isDigit = c :: digits :=
      List.takeWhile_eq_self_iff.mpr h
    have hle : decimal (c :: digits) ≤ decimal (c :: digits) * m :=
      Nat.le_mul_of_pos_right _ hm
    have hc := h c List.mem_cons_self
    rw [sizeNumber, if_pos hc, strtoull_of_isDigit hc, hall, min_eq_left (by omega),
      Nat.mod_eq_of_lt hfits]

/-- A number is read for what it says. -/
theorem SizeText.parse {criteria : List UInt8} {n : ℕ}
    (h : SizeText (criteria.drop 5) n) : indexCriteriaParseSize criteria = .ok n := by
  obtain ⟨hfits, digits, hne, hdigits, ⟨hvalue, rfl⟩ | ⟨suffix, m, hm, hvalue, rfl⟩⟩ := h
  · have hletters : adjacentLetters (digits ++ []) = false :=
      adjacentLetters_digits hdigits (by simp)
    rw [List.append_nil] at hletters
    have hlast := List.getLast?_eq_some_getLast hne
    have hdigit := hdigits _ (List.getLast_mem hne)
    rw [indexCriteriaParseSize, hvalue, if_neg (by simp [hletters]), hlast]
    dsimp only
    rw [if_neg (by simp [not_isAlpha_of_isDigit _ hdigit]),
      sizeNumber_digits hne hdigits le_rfl (by omega), Nat.mul_one]
  · obtain ⟨halpha, hpos⟩ := isAlpha_of_multiplier hm
    have hletters : adjacentLetters (digits ++ [suffix]) = false :=
      adjacentLetters_digits hdigits (by simp)
    rw [indexCriteriaParseSize, hvalue, if_neg (by simp [hletters]), List.getLast?_concat]
    dsimp only
    rw [if_pos halpha, hm]
    dsimp only
    rw [List.dropLast_concat, sizeNumber_digits hne hdigits hpos hfits]

theorem sizeNumber_isOk {rule : List UInt8} {m : ℕ} :
    (∃ n, sizeNumber rule m = .ok n) ↔ ∃ c rest, rule = c :: rest ∧ isDigit c = true := by
  cases rule with
  | nil => simp [sizeNumber]
  | cons c rest => by_cases hc : isDigit c = true <;> simp [sizeNumber, hc]

theorem parseSize_isOk (criteria : List UInt8) :
    (∃ n, indexCriteriaParseSize criteria = .ok n) ↔ LooseSize (criteria.drop 5) := by
  rw [indexCriteriaParseSize]
  generalize criteria.drop 5 = value
  cases hletters : adjacentLetters value with
  | true => simpa using fun h : LooseSize value => by simp [h.letters] at hletters
  | false =>
    rcases List.eq_nil_or_concat' value with rfl | ⟨front, last, rfl⟩
    · simpa using fun h : LooseSize [] => by simpa using h.digit
    · simp only [Bool.false_eq_true, if_false, List.getLast?_concat]
      cases halpha : isAlpha last with
      | false =>
        simp only [Bool.false_eq_true, if_false, sizeNumber_isOk]
        refine ⟨fun h => ⟨h, hletters, ?_⟩, fun h => h.digit⟩
        intro l hl
        obtain rfl : last = l := by simpa using hl
        simp [halpha]
      | true =>
        simp only [if_true]
        cases hm : multiplier last with
        | none =>
          simp only [reduceCtorEq, exists_false, false_iff]
          intro h
          obtain ⟨m, hsome⟩ := h.last last (by simp) halpha
          simp [hm] at hsome
        | some m =>
          simp only [List.dropLast_concat, sizeNumber_isOk]
          constructor
          · rintro ⟨c, rest, rfl, hc⟩
            refine ⟨⟨c, rest ++ [last], rfl, hc⟩, hletters, ?_⟩
            intro l hl _
            rw [List.getLast?_concat, Option.some.injEq] at hl
            exact ⟨m, hl ▸ hm⟩
          · intro h
            obtain ⟨c, rest, hvalue, hc⟩ := h.digit
            cases front with
            | nil =>
              obtain rfl : last = c := by simpa using (List.cons.inj hvalue).1
              simp [not_isAlpha_of_isDigit last hc] at halpha
            | cons d front =>
              obtain rfl : d = c := by simpa using (List.cons.inj hvalue).1
              exact ⟨d, front, rfl, hc⟩

/-! ## Names -/

/-- Patterns with colons between them -/
def NameText (value : List UInt8) (patterns : List (List UInt8)) : Prop :=
  value = [colon].intercalate patterns ∧ patterns ≠ [] ∧
    ∀ pattern ∈ patterns, pattern ≠ [] ∧ colon ∉ pattern ∧
      pathnameValidateFile pattern = .ok ()

/-- What the parser takes for patterns.  If there are none, it depends on what is behind
the end of the string. -/
def LooseName (junk value : List UInt8) : Prop :=
  (value = [] ∧ emptyRule 0 junk = false) ∨ ∃ patterns, NameText value patterns

theorem splitOn_colon_cons (c : UInt8) (rest : List UInt8) :
    (c :: rest).splitOn colon =
      if c = colon then [] :: rest.splitOn colon
      else (rest.splitOn colon).modifyHead (c :: ·) := by
  rw [List.splitOn_cons_eq_if_modifyHead]
  simp

/-- A rule that has begun is not empty. -/
theorem forall_modifyHead_iff (c : UInt8) (parts : List (List UInt8)) :
    (∀ part ∈ parts.modifyHead (c :: ·), part ≠ []) ↔ ∀ part ∈ parts.tail, part ≠ [] := by
  cases parts with
  | nil => simp
  | cons part parts => simp

/-- What the check finds behind a character that is no colon, and behind a colon. -/
theorem emptyRule_iff (rest : List UInt8) :
    (∀ before, before ≠ colon → (emptyRule before rest = false ↔
      ∀ part ∈ (rest.splitOn colon).tail, part ≠ [])) ∧
    (rest ≠ [] → (emptyRule colon rest = false ↔
      ∀ part ∈ rest.splitOn colon, part ≠ [])) := by
  induction rest with
  | nil => simp [emptyRule]
  | cons c rest ih =>
    obtain ⟨ihrule, ihcolon⟩ := ih
    rw [splitOn_colon_cons]
    by_cases hc : c = colon
    · subst hc
      rw [if_pos rfl]
      constructor
      · intro before hbefore
        rw [emptyRule, List.tail_cons]
        by_cases hrest : rest = []
        · simp [hrest]
        · simpa [hbefore, hrest] using ihcolon hrest
      · simp [emptyRule]
    · rw [if_neg hc, forall_modifyHead_iff]
      have htail : ((rest.splitOn colon).modifyHead (c :: ·)).tail =
          (rest.splitOn colon).tail := by
        cases rest.splitOn colon <;> rfl
      rw [htail]
      have hskip : ∀ before, emptyRule before (c :: rest) = emptyRule c rest := by
        simp [emptyRule, hc]
      exact ⟨fun before _ => by rw [hskip, ihrule c hc],
        fun _ => by rw [hskip, ihrule c hc]⟩

/-- The check finds every empty rule. -/
theorem no_empty_rule_iff (c : UInt8) (rest : List UInt8) :
    (c = colon || emptyRule c rest) = false ↔
      ∀ part ∈ (c :: rest).splitOn colon, part ≠ [] := by
  rw [splitOn_colon_cons]
  by_cases hc : c = colon
  · simp [hc]
  · rw [if_neg hc, forall_modifyHead_iff, ← (emptyRule_iff rest).1 c hc]
    simp [hc]

/-- The rules that are stored are the parts between the colons. -/
theorem assignRules_eq {value : List UInt8} (hne : value ≠ [])
    (hparts : ∀ part ∈ (value.splitOn colon).tail, part ≠ []) (rule : List UInt8) :
    assignRules rule value = (value.splitOn colon).modifyHead (rule ++ ·) := by
  induction value generalizing rule with
  | nil => exact absurd rfl hne
  | cons c rest ih =>
    rw [splitOn_colon_cons] at hparts ⊢
    rw [assignRules]
    by_cases hc : c = colon
    · rw [if_pos hc, List.tail_cons] at hparts
      have hrest : rest ≠ [] := by
        rintro rfl
        exact hparts [] (by simp) rfl
      have hid : (rest.splitOn colon).modifyHead ([] ++ ·) = rest.splitOn colon := by
        cases rest.splitOn colon <;> rfl
      rw [if_pos hc, if_pos hc,
        ih hrest (fun part h => hparts part (List.mem_of_mem_tail h)), hid]
      simp
    · rw [if_neg hc] at hparts
      rw [if_neg hc, if_neg hc]
      by_cases hrest : rest = []
      · simp [hrest]
      · rw [if_neg hrest, ih hrest]
        · cases rest.splitOn colon <;> simp
        · cases hsplit : rest.splitOn colon <;> simp_all

theorem validateRules_iff (rules : List (List UInt8)) :
    validateRules rules = .ok () ↔ ∀ rule ∈ rules, pathnameValidateFile rule = .ok () := by
  induction rules with
  | nil => simp [validateRules]
  | cons rule rules ih =>
    rw [validateRules]
    cases h : pathnameValidateFile rule with
    | error e => simp [h]
    | ok _ => simpa [h] using ih

theorem validateFile_nil : pathnameValidateFile [] = .ok () := by
  rw [pathnameValidateFile, if_neg (by decide), pathnameValidate, if_pos rfl]

theorem parseName_nil {junk criteria : List UInt8} (hvalue : criteria.drop 5 = []) :
    indexCriteriaParseName junk criteria =
      if emptyRule 0 junk then .error .policyEmptyRule else .ok [ltfsName []] := by
  rw [indexCriteriaParseName, hvalue]
  simp [assignRules, validateRules, validateFile_nil]

/-- The patterns are the parts between the colons. -/
theorem nameText_iff (value : List UInt8) (patterns : List (List UInt8)) :
    NameText value patterns ↔ value.splitOn colon = patterns ∧
      ∀ pattern ∈ patterns, pattern ≠ [] ∧ pathnameValidateFile pattern = .ok () := by
  constructor
  · rintro ⟨rfl, hne, hpatterns⟩
    exact ⟨List.splitOn_intercalate colon (fun p hp => (hpatterns p hp).2.1) hne,
      fun p hp => ⟨(hpatterns p hp).1, (hpatterns p hp).2.2⟩⟩
  · rintro ⟨rfl, hpatterns⟩
    exact ⟨(List.intercalate_splitOn colon).symm, List.splitOn_ne_nil colon value,
      fun p hp => ⟨(hpatterns p hp).1, notMem_of_mem_splitOn colon value p hp,
        (hpatterns p hp).2⟩⟩

theorem parseName_cons {junk criteria : List UInt8} {c : UInt8} {rest : List UInt8}
    (hvalue : criteria.drop 5 = c :: rest) :
    indexCriteriaParseName junk criteria =
      if c = colon || emptyRule c rest then .error .policyEmptyRule
      else match validateRules ((c :: rest).splitOn colon) with
        | .error e => .error e
        | .ok () => .ok (((c :: rest).splitOn colon).map ltfsName) := by
  rw [indexCriteriaParseName, hvalue]
  dsimp only
  by_cases hempty : (c = colon || emptyRule c rest) = true
  · rw [if_pos hempty, if_pos hempty]
  · have hparts := (no_empty_rule_iff c rest).mp (by simpa using hempty)
    have hrules : assignRules [] (c :: rest) = (c :: rest).splitOn colon := by
      rw [assignRules_eq (by simp) (fun part h => hparts part (List.mem_of_mem_tail h))]
      cases (c :: rest).splitOn colon <;> rfl
    cases hvalid : validateRules ((c :: rest).splitOn colon) <;>
      simp only [hempty, hrules, hvalid, List.splitOn_ne_nil, if_false, Bool.false_eq_true]

/-- Patterns are read for what they say. -/
theorem NameText.parse {junk criteria : List UInt8} {patterns : List (List UInt8)}
    (h : NameText (criteria.drop 5) patterns) :
    indexCriteriaParseName junk criteria = .ok (patterns.map ltfsName) := by
  obtain ⟨hsplit, hpatterns⟩ := (nameText_iff _ _).mp h
  cases hvalue : criteria.drop 5 with
  | nil =>
    rw [hvalue] at hsplit
    exact absurd rfl (hpatterns [] (by simp [← hsplit])).1
  | cons c rest =>
    rw [hvalue] at hsplit
    have hparts : (c = colon || emptyRule c rest) = false :=
      (no_empty_rule_iff c rest).mpr (hsplit ▸ fun p hp => (hpatterns p hp).1)
    have hvalid : validateRules patterns = .ok () :=
      (validateRules_iff patterns).mpr fun p hp => (hpatterns p hp).2
    rw [parseName_cons hvalue, hparts, hsplit, hvalid]
    rfl

theorem parseName_isOk (junk criteria : List UInt8) :
    (∃ names, indexCriteriaParseName junk criteria = .ok names) ↔
      LooseName junk (criteria.drop 5) := by
  constructor
  · rintro ⟨names, hok⟩
    cases hvalue : criteria.drop 5 with
    | nil =>
      rw [parseName_nil hvalue] at hok
      cases hjunk : emptyRule 0 junk with
      | true => simp [hjunk] at hok
      | false => exact .inl ⟨rfl, hjunk⟩
    | cons c rest =>
      rw [parseName_cons hvalue] at hok
      cases hempty : c = colon || emptyRule c rest with
      | true => simp [hempty] at hok
      | false =>
        cases hvalid : validateRules ((c :: rest).splitOn colon) with
        | error e => simp [hempty, hvalid] at hok
        | ok _ =>
          refine .inr ⟨_, (nameText_iff _ _).mpr ⟨rfl, fun p hp => ?_⟩⟩
          exact ⟨(no_empty_rule_iff c rest).mp hempty p hp,
            (validateRules_iff _).mp hvalid p hp⟩
  · rintro (⟨hvalue, hjunk⟩ | ⟨patterns, h⟩)
    · exact ⟨_, by rw [parseName_nil hvalue, hjunk]; rfl⟩
    · exact ⟨_, h.parse⟩

/-! ## Whole texts -/

/-- An option of the given word, in any case, with the given value -/
def IsOptionOf (word value opt : List UInt8) : Prop :=
  ∃ start, opt = start ++ value ∧ start.map toLower = word

/-- One option `size=` of value `n` and at most one option `name=`, with the given
patterns. -/
def RuleText (filterrules : List UInt8) (n : ℕ) (patterns : List (List UInt8)) : Prop :=
  ∃ size value, IsOptionOf sizeOption value size ∧ SizeText value n ∧
    ((options filterrules = [size] ∧ patterns = []) ∨
      ∃ name value, IsOptionOf nameOption value name ∧ NameText value patterns ∧
        (options filterrules = [size, name] ∨ options filterrules = [name, size]))

/-- The texts that the parser accepts -/
structure LooseText (junk filterrules : List UInt8) : Prop where
  all : ∀ opt ∈ options filterrules, isOption opt = true
  sizes : ∃ size sizes, (options filterrules).filter (startsWith sizeOption) = size :: sizes ∧
    Even sizes.length ∧ LooseSize (size.drop 5)
  names : (options filterrules).filter (startsWith nameOption) = [] ∨
    ∃ name names, (options filterrules).filter (startsWith nameOption) = name :: names ∧
      Even names.length ∧ LooseName junk (name.drop 5)

theorem IsOptionOf.startsWith {word value opt : List UInt8} (h : IsOptionOf word value opt) :
    startsWith word opt = true := by
  obtain ⟨start, hopt, hword⟩ := h
  exact startsWith_iff.mpr ⟨start, value, hopt, hword⟩

theorem IsOptionOf.drop {word value opt : List UInt8} (h : IsOptionOf word value opt) :
    opt.drop word.length = value := by
  obtain ⟨start, rfl, rfl⟩ := h
  rw [List.length_map, List.drop_left]

/-- An option is not both. -/
theorem startsWith_exclusive {opt : List UInt8} (h : startsWith nameOption opt = true) :
    startsWith sizeOption opt = false := by
  by_contra hsize
  rw [Bool.not_eq_false, startsWith, decide_eq_true_eq] at hsize
  rw [startsWith, decide_eq_true_eq] at h
  have hword : nameOption = sizeOption := h.symm.trans hsize
  exact absurd hword (by decide)

theorem map_isOk {ε α β : Type*} (r : Except ε α) (f : α → β) :
    (∃ b, r.map f = .ok b) ↔ ∃ a, r = .ok a := by
  cases r with
  | error e => simp [Except.map]
  | ok a => simp [Except.map]

/-- The options `name=` of an accepted text -/
theorem namesOf_isOk (junk : List UInt8) (opts : List (List UInt8)) :
    (∃ names, namesOf junk (classify opts) = .ok names) ↔
      opts = [] ∨ ∃ name names, opts = name :: names ∧ Even names.length ∧
        LooseName junk (name.drop 5) := by
  cases opts with
  | nil => simp [classify, namesOf]
  | cons name names =>
    by_cases heven : Even names.length
    · simp [classify, heven, namesOf, map_isOk, parseName_isOk]
    · simp [classify, heven, namesOf]

/-- A text without names has a size. -/
theorem exists_size {junk filterrules : List UInt8}
    (hall : ∀ opt ∈ options filterrules, isOption opt = true)
    (hnames : namesOf junk
      (classify ((options filterrules).filter (startsWith nameOption))) = .ok none) :
    (options filterrules).filter (startsWith sizeOption) ≠ [] := by
  obtain ⟨opt, opts, hoptions, -⟩ := exists_options filterrules
  rw [hoptions] at hall hnames ⊢
  obtain ⟨hopt, -⟩ := List.forall_mem_cons.mp hall
  rcases Bool.or_eq_true_iff.mp hopt with hname | hsize
  · rw [List.filter_cons_of_pos hname, classify] at hnames
    split_ifs at hnames
    · rw [namesOf] at hnames
      cases hparse : indexCriteriaParseName junk opt <;> simp [hparse, Except.map] at hnames
    · simp [namesOf] at hnames
  · rw [List.filter_cons_of_pos hsize]
    simp

theorem indexCriteriaParse_isOk (junk filterrules : List UInt8) :
    (∃ criteria, indexCriteriaParse junk filterrules = .ok criteria) ↔
      LooseText junk filterrules := by
  rw [indexCriteriaParse_eq]
  constructor
  · rintro ⟨criteria, hok⟩
    split_ifs at hok with hall
    rw [List.all_eq_true] at hall
    cases hnames : namesOf junk
        (classify ((options filterrules).filter (startsWith nameOption))) with
    | error e => simp [hnames] at hok
    | ok names =>
      have hloose := (namesOf_isOk junk _).mp ⟨names, hnames⟩
      rw [hnames] at hok
      dsimp only at hok
      cases hsizes : (options filterrules).filter (startsWith sizeOption) with
      | nil =>
        rw [hsizes] at hok
        cases names with
        | some names => simp [classify] at hok
        | none => exact absurd hsizes (exists_size hall hnames)
      | cons size sizes =>
        rw [hsizes, classify] at hok
        by_cases heven : Even sizes.length
        · rw [if_pos heven] at hok
          have hsize := (parseSize_isOk size).mp ((map_isOk _ _).mp ⟨criteria, hok⟩)
          exact ⟨hall, ⟨size, sizes, hsizes, heven, hsize⟩, hloose⟩
        · simp [heven] at hok
  · rintro ⟨hall, ⟨size, sizes, hsizes, heven, hloose⟩, hnames⟩
    obtain ⟨names, hnames⟩ := (namesOf_isOk junk _).mpr hnames
    obtain ⟨n, hn⟩ := (parseSize_isOk size).mpr hloose
    rw [if_pos (List.all_eq_true.mpr hall), hnames, hsizes, classify, if_pos heven]
    exact ⟨⟨n, names.getD []⟩, by simp [hn, Except.map]⟩

/-- A rule text is read for what it says. -/
theorem RuleText.parse {filterrules : List UInt8} {n : ℕ} {patterns : List (List UInt8)}
    (h : RuleText filterrules n patterns) (junk : List UInt8) :
    indexCriteriaParse junk filterrules = .ok ⟨n, patterns.map ltfsName⟩ := by
  obtain ⟨size, value, hsize, hvalue, hoptions⟩ := h
  have hstart := hsize.startsWith
  have hother : startsWith nameOption size = false := by
    by_contra hname
    rw [Bool.not_eq_false] at hname
    rw [startsWith_exclusive hname] at hstart
    exact absurd hstart (by simp)
  have hnumber : indexCriteriaParseSize size = .ok n := SizeText.parse (hsize.drop ▸ hvalue)
  rw [indexCriteriaParse_eq]
  rcases hoptions with ⟨hsingle, rfl⟩ | ⟨name, text, hname, htext, hpair⟩
  · rw [hsingle]
    simp [isOption, hstart, hother, classify, namesOf, hnumber, Except.map]
  · have hname' := hname.startsWith
    have hname'' := startsWith_exclusive hname'
    have hpatterns : indexCriteriaParseName junk name = .ok (patterns.map ltfsName) :=
      NameText.parse (hname.drop ▸ htext)
    rcases hpair with hpair | hpair
    · rw [hpair]
      simp [isOption, hstart, hother, hname', hname'', classify, namesOf, hnumber,
        hpatterns, Except.map]
    · rw [hpair]
      simp [isOption, hstart, hother, hname', hname'', classify, namesOf, hnumber,
        hpatterns, Except.map]

/-- A text is accepted exactly if it is a rule text, and then for what it says. -/
def ReadAsWritten (junk filterrules : List UInt8) : Prop :=
  ((∃ criteria, indexCriteriaParse junk filterrules = .ok criteria) ↔
    ∃ n patterns, RuleText filterrules n patterns) ∧
  ∀ criteria n patterns, indexCriteriaParse junk filterrules = .ok criteria →
    RuleText filterrules n patterns →
      criteria.maxFilesizeCriteria = n ∧ criteria.globPatterns = patterns.map ltfsName

theorem readAsWritten_iff (junk filterrules : List UInt8) :
    ReadAsWritten junk filterrules ↔
      (LooseText junk filterrules → ∃ n patterns, RuleText filterrules n patterns) := by
  rw [ReadAsWritten, indexCriteriaParse_isOk]
  constructor
  · rintro ⟨haccepted, -⟩ hloose
    exact haccepted.mp hloose
  · intro hrule
    refine ⟨⟨hrule, fun ⟨n, patterns, h⟩ => ?_⟩, fun criteria n patterns hok h => ?_⟩
    · exact (indexCriteriaParse_isOk junk filterrules).mp ⟨_, h.parse junk⟩
    · obtain rfl := Except.ok.inj ((h.parse junk).symm.trans hok)
      exact ⟨rfl, rfl⟩

/-- The text `size=1/size=2/size=3` -/
def threeSizes : List UInt8 :=
  sizeOption ++ [0x31, 0x2F] ++ sizeOption ++ [0x32, 0x2F] ++ sizeOption ++ [0x33]

/-- Of three options the first is taken. -/
theorem indexCriteriaParse_accepts_more :
    (indexCriteriaParse [] threeSizes).isOk = true ∧
      ¬∃ n patterns, RuleText threeSizes n patterns := by
  have hthree : (options threeSizes).length = 3 := by decide +kernel
  refine ⟨by decide +kernel, ?_⟩
  rintro ⟨n, patterns, size, value, -, -, ⟨hoptions, -⟩ | ⟨name, text, -, -, hoptions⟩⟩
  · simp [hoptions] at hthree
  · rcases hoptions with hoptions | hoptions <;> simp [hoptions] at hthree

end AuroraLtfs.Criteria
