import AuroraLtfs.Criteria.Rules

/-!
# The options of a rule text

The search for an option walks over the text; seen from the options that the slashes
separate, it counts how often the option occurs.  An option that occurs three times is
taken like one that occurs once, as the error of the inner search is lost.
-/

namespace AuroraLtfs.Criteria

open Text Strtoull

/-- The options that the slashes separate -/
def options (filterrules : List UInt8) : List (List UInt8) :=
  filterrules.splitOn slash

/-- What comes behind an option when `opts` are left. -/
def behind : List (List UInt8) → List UInt8
  | [] => []
  | opt :: opts => slash :: (opt ++ behind opts)

/-- What the search makes of the occurrences of an option. -/
def classify : List (List UInt8) → Found
  | [] => .missing
  | opt :: opts => if Even opts.length then .option opt else .duplicated

theorem intercalate_cons (opt : List UInt8) (opts : List (List UInt8)) :
    [slash].intercalate (opt :: opts) = opt ++ behind opts := by
  induction opts generalizing opt with
  | nil => simp [behind]
  | cons next opts ih =>
    rw [List.intercalate_cons_cons, ih, behind]
    simp

theorem notMem_of_mem_splitOn (sep : UInt8) (text : List UInt8) :
    ∀ part ∈ text.splitOn sep, sep ∉ part := by
  induction text with
  | nil => simp
  | cons c text ih =>
    rw [List.splitOn_cons_eq_if_modifyHead]
    split_ifs with hc
    · simpa using ih
    · rw [beq_iff_eq] at hc
      cases hsplit : text.splitOn sep with
      | nil => simp
      | cons part parts =>
        rw [hsplit] at ih
        obtain ⟨hpart, hparts⟩ := List.forall_mem_cons.mp ih
        refine List.forall_mem_cons.mpr ⟨?_, hparts⟩
        simpa [hpart] using fun h : sep = c => hc h.symm

/-- A text is its options with slashes between them. -/
theorem exists_options (filterrules : List UInt8) :
    ∃ opt opts, options filterrules = opt :: opts ∧ filterrules = opt ++ behind opts := by
  cases hsplit : options filterrules with
  | nil => exact absurd hsplit (List.splitOn_ne_nil slash filterrules)
  | cons opt opts =>
    refine ⟨opt, opts, rfl, ?_⟩
    rw [← intercalate_cons, ← hsplit, options, List.intercalate_splitOn]

theorem startsWith_iff {option str : List UInt8} :
    startsWith option str = true ↔
      ∃ word rest, str = word ++ rest ∧ word.map toLower = option := by
  rw [startsWith, decide_eq_true_eq]
  constructor
  · intro h
    exact ⟨_, _, (List.take_append_drop option.length str).symm, h⟩
  · rintro ⟨word, rest, rfl, rfl⟩
    rw [List.length_map, List.take_left]

theorem length_of_startsWith {option str : List UInt8} (h : startsWith option str = true) :
    option.length ≤ str.length := by
  obtain ⟨word, rest, rfl, rfl⟩ := startsWith_iff.mp h
  simp

/-- An option that has no slash stands before the next slash. -/
theorem startsWith_append_behind {option opt : List UInt8} (hoption : slash ∉ option)
    (opts : List (List UInt8)) :
    startsWith option (opt ++ behind opts) = startsWith option opt := by
  rw [Bool.eq_iff_iff, startsWith_iff, startsWith_iff]
  constructor
  · rintro ⟨word, rest, happend, rfl⟩
    rcases List.append_eq_append_iff.mp happend with ⟨more, rfl, hmore⟩ | ⟨more, rfl, -⟩
    · cases more with
      | nil => exact ⟨opt, [], by simp, by simp⟩
      | cons c more =>
        -- the word would reach over the slash
        cases opts with
        | nil => simp [behind] at hmore
        | cons next opts =>
          obtain rfl : slash = c := (List.cons.inj hmore).1
          exact absurd (List.mem_map.mpr ⟨slash, by simp, rfl⟩) hoption
    · exact ⟨word, more, rfl, rfl⟩
  · rintro ⟨word, rest, rfl, rfl⟩
    exact ⟨word, rest ++ behind opts, List.append_assoc _ _ _, rfl⟩

theorem takeWhile_append_behind {opt : List UInt8} (hopt : slash ∉ opt)
    (opts : List (List UInt8)) :
    (opt ++ behind opts).takeWhile (· ≠ slash) = opt ∧
      (opt ++ behind opts).dropWhile (· ≠ slash) = behind opts := by
  have hall : ∀ c ∈ opt, decide (c ≠ slash) = true := by
    intro c hc
    simpa using fun h : c = slash => hopt (h ▸ hc)
  rw [List.takeWhile_append_of_pos hall, List.dropWhile_append_of_pos hall]
  cases opts with
  | nil => simp [behind]
  | cons next opts => simp [behind]

theorem length_le_behind {opt : List UInt8} {opts : List (List UInt8)} (h : opt ∈ opts) :
    opt.length ≤ (behind opts).length := by
  induction opts with
  | nil => simp at h
  | cons first opts ih =>
    rw [behind, List.length_cons, List.length_append]
    rcases List.mem_cons.mp h with rfl | h
    · omega
    · have := ih h
      omega

section Search

variable {substr opt : List UInt8}

theorem walkToOption_append (hopt : slash ∉ opt) (str : List UInt8) :
    walkToOption substr (opt ++ str) = walkToOption substr str := by
  induction opt with
  | nil => rfl
  | cons c opt ih =>
    rw [List.mem_cons, not_or] at hopt
    rw [List.cons_append, walkToOption, if_neg fun h => hopt.1 h.1.symm, ih hopt.2]

variable (hsubstr : slash ∉ substr) {opts : List (List UInt8)}
include hsubstr

/-- The walk stops at the first of the options that match. -/
theorem walkToOption_behind (hopts : ∀ o ∈ opts, slash ∉ o) :
    (opts.filter (startsWith substr) = [] ∧ walkToOption substr (behind opts) = none) ∨
      ∃ opt rest, opts.filter (startsWith substr) = opt :: rest.filter (startsWith substr) ∧
        walkToOption substr (behind opts) = some (opt ++ behind rest) ∧
        slash ∉ opt ∧ ∀ o ∈ rest, slash ∉ o := by
  induction opts with
  | nil => exact .inl ⟨rfl, rfl⟩
  | cons opt opts ih =>
    obtain ⟨hopt, hopts⟩ := List.forall_mem_cons.mp hopts
    rw [behind, walkToOption, startsWith_append_behind hsubstr]
    cases hstart : startsWith substr opt with
    | true =>
      exact .inr ⟨opt, opts, List.filter_cons_of_pos hstart, if_pos ⟨rfl, rfl⟩, hopt, hopts⟩
    | false =>
      rw [if_neg (by simp), walkToOption_append hopt,
        List.filter_cons_of_neg (by simp [hstart])]
      exact ih hopts

/-- The search counts the occurrences of an option. -/
theorem indexCriteriaFindOption_eq (hlength : substr.length = 5) (hopt : slash ∉ opt)
    (hopts : ∀ o ∈ opts, slash ∉ o) {rounds : ℕ}
    (hrounds : ((opt :: opts).filter (startsWith substr)).length < rounds) :
    indexCriteriaFindOption substr rounds (opt ++ behind opts) =
      classify ((opt :: opts).filter (startsWith substr)) := by
  induction rounds generalizing opt opts with
  | zero => omega
  | succ rounds ih =>
    rw [indexCriteriaFindOption]
    by_cases hshort : (opt ++ behind opts).length < 5
    · have hnone : (opt :: opts).filter (startsWith substr) = [] := by
        rw [List.filter_eq_nil_iff]
        intro o ho hstart
        have hlong := length_of_startsWith hstart
        rw [List.length_append] at hshort
        rcases List.mem_cons.mp ho with rfl | ho
        · omega
        · have := length_le_behind ho
          omega
      rw [if_pos hshort, hnone]
      rfl
    · rw [if_neg hshort]
      -- from the first option that matches the search goes on behind it
      have hfirst : ∀ {o : List UInt8} {rest : List (List UInt8)}, slash ∉ o →
          (∀ o ∈ rest, slash ∉ o) → (opt :: opts).filter (startsWith substr) =
            o :: rest.filter (startsWith substr) →
          (∀ text, indexCriteriaFindOption substr rounds
              ((o ++ behind rest).dropWhile (· ≠ slash)) = .option text →
            Found.duplicated = classify ((opt :: opts).filter (startsWith substr))) ∧
          ((∀ text, indexCriteriaFindOption substr rounds
              ((o ++ behind rest).dropWhile (· ≠ slash)) ≠ .option text) →
            .option ((o ++ behind rest).takeWhile (· ≠ slash)) =
              classify ((opt :: opts).filter (startsWith substr))) := by
        intro o rest ho hrest hfilter
        have hempty : ([] :: rest).filter (startsWith substr) =
            rest.filter (startsWith substr) := by
          rw [List.filter_cons_of_neg]
          intro hstart
          have := length_of_startsWith hstart
          simp [hlength] at this
        obtain ⟨htake, hdrop⟩ := takeWhile_append_behind ho rest
        rw [hfilter, List.length_cons] at hrounds
        have hnext := @ih [] rest (by simp) hrest (by rw [hempty]; omega)
        rw [hempty, List.nil_append] at hnext
        rw [htake, hdrop, hnext, hfilter]
        cases hoccur : rest.filter (startsWith substr) with
        | nil => simp [classify]
        | cons next more =>
          simp only [classify, List.length_cons, Nat.even_add_one]
          by_cases heven : Even more.length
          · simp [heven]
          · simp [heven]
      cases hstart : startsWith substr opt with
      | true =>
        rw [startsWith_append_behind hsubstr, hstart]
        obtain ⟨htwice, honce⟩ := hfirst hopt hopts (List.filter_cons_of_pos hstart)
        rw [if_pos rfl]
        dsimp only
        split
        next text heq => exact htwice text heq
        next hnone => exact honce hnone
      | false =>
        have hfilter : (opt :: opts).filter (startsWith substr) =
            opts.filter (startsWith substr) := List.filter_cons_of_neg (by simp [hstart])
        rw [startsWith_append_behind hsubstr, hstart, walkToOption_append hopt]
        rcases walkToOption_behind hsubstr hopts with ⟨hnone, hwalk⟩ |
          ⟨o, rest, hsome, hwalk, ho, hrest⟩
        · rw [hfilter, hnone, hwalk]
          rfl
        · obtain ⟨htwice, honce⟩ := hfirst ho hrest (hfilter.trans hsome)
          rw [hwalk, if_neg Bool.false_ne_true]
          dsimp only
          split
          next text heq => exact htwice text heq
          next hnone => exact honce hnone

end Search

theorem isOption_append_behind (opt : List UInt8) (opts : List (List UInt8)) :
    isOption (opt ++ behind opts) = isOption opt := by
  rw [isOption, isOption, startsWith_append_behind (by decide),
    startsWith_append_behind (by decide)]

theorem invalidAfterSeparator_append {opt : List UInt8} (hopt : slash ∉ opt)
    (str : List UInt8) :
    invalidAfterSeparator (opt ++ str) = invalidAfterSeparator str := by
  induction opt with
  | nil => rfl
  | cons c opt ih =>
    rw [List.mem_cons, not_or] at hopt
    rw [List.cons_append, invalidAfterSeparator, if_neg (Ne.symm hopt.1), ih hopt.2]

theorem invalidAfterSeparator_behind {opts : List (List UInt8)}
    (hopts : ∀ o ∈ opts, slash ∉ o) :
    invalidAfterSeparator (behind opts) = !opts.all isOption := by
  induction opts with
  | nil => rfl
  | cons opt opts ih =>
    obtain ⟨hopt, hopts⟩ := List.forall_mem_cons.mp hopts
    rw [behind, invalidAfterSeparator, if_pos rfl, isOption_append_behind,
      invalidAfterSeparator_append hopt, ih hopts, List.all_cons, Bool.not_and]

/-- A text is not refused at once where every option is one of the two. -/
theorem containsInvalidOptions_eq (filterrules : List UInt8) :
    indexCriteriaContainsInvalidOptions filterrules = !(options filterrules).all isOption := by
  obtain ⟨opt, opts, hoptions, htext⟩ := exists_options filterrules
  have hslash := notMem_of_mem_splitOn slash filterrules
  rw [← options, hoptions] at hslash
  rw [hoptions]
  obtain ⟨hopt, hopts⟩ := List.forall_mem_cons.mp hslash
  rw [htext, indexCriteriaContainsInvalidOptions, isOption_append_behind, List.all_cons]
  cases hstart : isOption opt with
  | false => simp
  | true =>
    have hlong : 5 ≤ opt.length := by
      rcases Bool.or_eq_true_iff.mp hstart with h | h
      · exact length_of_startsWith h
      · exact length_of_startsWith h
    obtain ⟨c, rest, rfl⟩ := List.exists_cons_of_length_pos (by omega : 0 < opt.length)
    have hshort : ¬(c :: rest ++ behind opts).length < 5 := by
      rw [List.length_append]
      omega
    rw [decide_eq_false hshort, List.cons_append, List.drop_succ_cons, List.drop_zero,
      invalidAfterSeparator_append fun h => hopt (List.mem_cons_of_mem _ h),
      invalidAfterSeparator_behind hopts]
    rfl

theorem length_le_length_behind (opts : List (List UInt8)) :
    opts.length ≤ (behind opts).length := by
  induction opts with
  | nil => rfl
  | cons opt opts ih =>
    rw [behind, List.length_cons, List.length_cons, List.length_append]
    omega

/-- The search in a whole text. -/
theorem findOption_eq {substr : List UInt8} (hsubstr : slash ∉ substr)
    (hlength : substr.length = 5) (filterrules : List UInt8) :
    indexCriteriaFindOption substr (filterrules.length + 2) filterrules =
      classify ((options filterrules).filter (startsWith substr)) := by
  obtain ⟨opt, opts, hoptions, htext⟩ := exists_options filterrules
  have hslash := notMem_of_mem_splitOn slash filterrules
  rw [← options, hoptions] at hslash
  rw [hoptions]
  obtain ⟨hopt, hopts⟩ := List.forall_mem_cons.mp hslash
  have hle : ((opt :: opts).filter (startsWith substr)).length ≤ opts.length + 1 :=
    List.length_filter_le _ _
  have hbehind := length_le_length_behind opts
  have hsum : filterrules.length = opt.length + (behind opts).length := by
    rw [htext, List.length_append]
  have hfind : indexCriteriaFindOption substr (filterrules.length + 2) (opt ++ behind opts) =
      classify ((opt :: opts).filter (startsWith substr)) :=
    indexCriteriaFindOption_eq hsubstr hlength hopt hopts (by omega)
  rw [← hfind, ← htext]

/-! ## The whole parse -/

/-- What is made of the first option `name=`. -/
def namesOf (junk : List UInt8) (found : Found) : Except RuleError (Option (List LtfsName)) :=
  match found with
  | .option criteria => (indexCriteriaParseName junk criteria).map some
  | .duplicated => .error .policyInvalid
  | .missing => .ok none

theorem indexCriteriaParse_eq (junk filterrules : List UInt8) :
    indexCriteriaParse junk filterrules =
      if (options filterrules).all isOption then
        match namesOf junk (classify ((options filterrules).filter (startsWith nameOption))) with
        | .error e => .error e
        | .ok names =>
          match classify ((options filterrules).filter (startsWith sizeOption)) with
          | .option criteria =>
            (indexCriteriaParseSize criteria).map fun size => ⟨size, names.getD []⟩
          | .duplicated => .error .policyInvalid
          | .missing =>
            if names.isSome then .error .policyInvalid else .ok ⟨0, []⟩
      else .error .policyInvalid := by
  rw [indexCriteriaParse, containsInvalidOptions_eq, findOption_eq (by decide) rfl,
    findOption_eq (by decide) rfl]
  cases (options filterrules).all isOption <;> rfl

end AuroraLtfs.Criteria
