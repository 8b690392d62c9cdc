import EarleyForest.Parser.Basic

/-!
# First Offenders

A grammar that is unfit for parsing may be so in many places. The check names
one of them, and which one is settled by the grammar alone: the start symbol
if it heads no rule, and otherwise the leftmost offender in the first body that
has one.

Two searches, one inside the other, find it. A search in a list stops at the
first element that meets its condition, so what lies before that element does
not meet it; said of the symbols of a body and of the rules of a grammar, this
is what the two searches are.

## Main definitions

* `Grammar.Declared`: All nonterminals among some symbols head a rule.
* `Grammar.FirstUndeclared`: The first offender in a body.

## Theorems

* `undeclaredIn?_eq_some_iff`, `undeclared?_eq_some_iff`: What each search
  finds.
* `exists_firstUndeclared_iff`: When there is an offender in a body.
* `validate_eq_missingStart_iff`, `validate_eq_undeclared_iff`: Which flaw the
  check names.
* `ofGrammar_eq_error_iff`, `ofGrammar_eq_ok`: A parser is refused for the same
  reason.
-/

namespace EarleyForest

variable {T N : Type}

namespace Grammar

/-- The nonterminals among these symbols head rules. -/
def Declared (g : Grammar T N) (symbols : List (Symbol T N)) : Prop :=
  ∀ n, .nonterminal n ∈ symbols → g.Declares n

/-- Rule number `rule` is the first in whose body a nonterminal heads no rule,
    and `n` is the leftmost such nonterminal there. -/
structure FirstUndeclared (g : Grammar T N) (rule : Nat) (n : N) : Prop where
  undeclared : ¬ g.Declares n
  leftmost : ∃ r before behind, g.rules[rule]? = some r ∧
    r.body = before ++ .nonterminal n :: behind ∧ g.Declared before
  least {index : Nat} {r : Rule T N} :
    index < rule → g.rules[index]? = some r → g.Declared r.body

variable {g : Grammar T N}

/-- The rule of the first offender has the offender in its body. -/
theorem FirstUndeclared.not_declared {rule : Nat} {n : N} (h : g.FirstUndeclared rule n)
    {r : Rule T N} (hr : g.rules[rule]? = some r) : ¬ g.Declared r.body := by
  rcases h.leftmost with ⟨r', before, behind, hr', hbody, _⟩
  cases hr.symm.trans hr'
  intro hall
  refine h.undeclared (hall n ?_)
  rw [hbody]
  exact List.mem_append_right _ List.mem_cons_self

variable [DecidableEq N]

/-- In a body the leftmost offender is found. -/
theorem undeclaredIn?_eq_some_iff {body : List (Symbol T N)} {n : N} :
    g.undeclaredIn? body = some n ↔ ¬ g.Declares n ∧
      ∃ before behind, body = before ++ .nonterminal n :: behind ∧ g.Declared before := by
  constructor
  · intro h
    rcases List.find?_eq_some_iff_append.mp h with ⟨hn, names, _, hnames, hearlier⟩
    -- The search goes through the nonterminals only. The one found is a symbol
    -- of the body, and the names before it are those before that symbol.
    rcases List.filterMap_eq_append_iff.mp hnames with ⟨first, rest, rfl, rfl, hrest⟩
    rcases List.filterMap_eq_cons_iff.mp hrest with ⟨skipped, s, behind, rfl, hskipped, hs, _⟩
    have hs : s = .nonterminal n := by
      cases s with
      | terminal t => cases hs
      | nonterminal m => rw [Option.some.inj hs]
    subst hs
    refine ⟨of_decide_eq_true hn, first ++ skipped, behind, (List.append_assoc ..).symm, ?_⟩
    intro m hm
    rcases List.mem_append.mp hm with hm | hm
    · have hdeclared := hearlier m (List.mem_filterMap.mpr ⟨_, hm, rfl⟩)
      rwa [Bool.not_eq_true', decide_eq_false_iff_not, Decidable.not_not] at hdeclared
    · cases hskipped _ hm
  · rintro ⟨hn, before, behind, rfl, hbefore⟩
    have hnone : g.undeclaredIn? before = none := undeclaredIn?_eq_none_iff.mpr hbefore
    unfold undeclaredIn? at hnone ⊢
    rw [List.filterMap_append, List.find?_append, hnone, Option.none_or]
    exact List.find?_cons_of_pos (decide_eq_true hn)

/-- There is one first offender at most. -/
theorem FirstUndeclared.unique {rule rule' : Nat} {n n' : N} (h : g.FirstUndeclared rule n)
    (h' : g.FirstUndeclared rule' n') : rule = rule' ∧ n = n' := by
  rcases h.leftmost with ⟨r, before, behind, hr, hbody, hbefore⟩
  rcases h'.leftmost with ⟨r', before', behind', hr', hbody', hbefore'⟩
  have hrule : rule = rule' := by
    rcases Nat.lt_trichotomy rule rule' with hlt | heq | hlt
    · exact absurd (h'.least hlt hr) (h.not_declared hr)
    · exact heq
    · exact absurd (h.least hlt hr') (h'.not_declared hr')
  subst hrule
  cases hr.symm.trans hr'
  -- Both are what the search in that body finds.
  have hfound := undeclaredIn?_eq_some_iff.mpr ⟨h.undeclared, before, behind, hbody, hbefore⟩
  have hfound' := undeclaredIn?_eq_some_iff.mpr ⟨h'.undeclared, before', behind', hbody', hbefore'⟩
  exact ⟨rfl, Option.some.inj (hfound.symm.trans hfound')⟩

/-- The offender found in the bodies is the first. -/
theorem firstUndeclared_of_undeclared? {rule : Nat} {n : N}
    (h : g.undeclared? = some (rule, n)) : g.FirstUndeclared rule n := by
  rcases List.findSome?_eq_some_iff.mp h with ⟨earlier, ⟨r, index⟩, later, hrules, hfound, hnone⟩
  rcases Option.map_eq_some_iff.mp hfound with ⟨m, hm, hpair⟩
  cases hpair
  rcases undeclaredIn?_eq_some_iff.mp hm with ⟨hn, before, behind, hbody, hbefore⟩
  -- Each rule is searched along with its index, which is its place.
  have hplace (place : Nat) :
      g.rules.zipIdx[place]? = (g.rules[place]?).map fun r => (r, place) := by
    rw [List.getElem?_zipIdx, Nat.zero_add]
  have hat : g.rules.zipIdx[earlier.length]? = some (r, rule) := by
    rw [hrules, List.getElem?_append_right (Nat.le_refl _), Nat.sub_self, List.getElem?_cons_zero]
  rw [hplace] at hat
  rcases Option.map_eq_some_iff.mp hat with ⟨r', hr', hpair⟩
  cases hpair
  refine ⟨hn, ⟨r, before, behind, hr', hbody, hbefore⟩, fun {index r'} hlt hr' => ?_⟩
  have hearlier : (r', index) ∈ earlier := by
    have hat' := hplace index
    rw [hr', hrules, List.getElem?_append_left hlt] at hat'
    exact List.mem_of_getElem? hat'
  exact undeclaredIn?_eq_none_iff.mp (Option.map_eq_none_iff.mp (hnone _ hearlier))

/-- Some body has an offender if one of them is the first. -/
theorem exists_firstUndeclared_iff :
    (∃ rule n, g.FirstUndeclared rule n) ↔
      ∃ r ∈ g.rules, ∃ n, .nonterminal n ∈ r.body ∧ ¬ g.Declares n := by
  constructor
  · rintro ⟨rule, n, hfirst⟩
    rcases hfirst.leftmost with ⟨r, before, behind, hr, hbody, _⟩
    refine ⟨r, List.mem_of_getElem? hr, n, ?_, hfirst.undeclared⟩
    rw [hbody]
    exact List.mem_append_right _ List.mem_cons_self
  · rintro ⟨r, hr, n, hmem, hn⟩
    cases hfound : g.undeclared? with
    | none => exact absurd (undeclared?_eq_none_iff.mp hfound r hr n hmem) hn
    | some offender => exact ⟨_, _, firstUndeclared_of_undeclared? hfound⟩

/-- The search in the bodies finds the first offender. -/
theorem undeclared?_eq_some_iff {rule : Nat} {n : N} :
    g.undeclared? = some (rule, n) ↔ g.FirstUndeclared rule n := by
  refine ⟨firstUndeclared_of_undeclared?, fun hfirst => ?_⟩
  cases hfound : g.undeclared? with
  | none =>
      rcases exists_firstUndeclared_iff.mp ⟨rule, n, hfirst⟩ with ⟨r, hr, m, hmem, hm⟩
      exact absurd (undeclared?_eq_none_iff.mp hfound r hr m hmem) hm
  | some offender =>
      rcases (firstUndeclared_of_undeclared? hfound).unique hfirst with ⟨hrule, hn⟩
      rw [← hrule, ← hn]

/-- The start symbol is named if and only if it heads no rule. -/
theorem validate_eq_missingStart_iff {start : N} :
    g.validate = .error (.missingStart start) ↔ start = g.start ∧ ¬ g.Declares g.start := by
  unfold validate
  by_cases hstart : g.Declares g.start
  · rw [if_pos hstart]
    cases g.undeclared? <;> simp only [hstart, reduceCtorEq, not_true_eq_false, and_false,
      Except.error.injEq]
  · rw [if_neg hstart]
    simp only [hstart, Except.error.injEq, Flaw.missingStart.injEq, not_false_eq_true, and_true]
    exact eq_comm

/-- An offender in a body is named if and only if it is the first one and the
    start symbol is none. -/
theorem validate_eq_undeclared_iff {rule : Nat} {n : N} :
    g.validate = .error (.undeclared rule n) ↔ g.Declares g.start ∧ g.FirstUndeclared rule n := by
  rw [← undeclared?_eq_some_iff]
  unfold validate
  by_cases hstart : g.Declares g.start
  · cases hbody : g.undeclared? with
    | none => simp only [hstart, if_true, reduceCtorEq, and_false]
    | some offender =>
        simp only [hstart, if_true, true_and, Except.error.injEq, Flaw.undeclared.injEq,
          Option.some.injEq, Prod.ext_iff]
  · simp only [hstart, if_false, reduceCtorEq, false_and, Except.error.injEq]

end Grammar

namespace Parser

variable [DecidableEq N]

/-- A valid grammar has a parser. -/
theorem ofGrammar_eq_ok {g : Grammar T N} (hvalid : g.validate = .ok ()) (spelling : Spelling T N) :
    ofGrammar g spelling = .ok ⟨g, spelling, hvalid⟩ := by
  unfold ofGrammar
  split
  · rename_i flaw hflaw
    rw [hvalid] at hflaw
    cases hflaw
  · rfl

/-- Another grammar is refused for its first flaw. -/
theorem ofGrammar_eq_error_iff {g : Grammar T N} {spelling : Spelling T N}
    {flaw : Grammar.Flaw N} :
    ofGrammar g spelling = .error flaw ↔ g.validate = .error flaw := by
  unfold ofGrammar
  split
  · rename_i flaw' hflaw
    rw [hflaw, Except.error.injEq, Except.error.injEq]
  · rename_i hvalid
    exact ⟨fun h => (by cases h), fun h => (by cases hvalid.symm.trans h)⟩

end Parser

end EarleyForest
