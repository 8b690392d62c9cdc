import EarleyForest.Grammar.Basic

/-!
# Valid Grammars

A grammar is fit for parsing when its start symbol heads a rule and so does
every nonterminal that a body mentions. The check names the first offender:
the start symbol before any body, then the bodies in the order of the rules,
each from left to right.

## Main definitions

* `Grammar.Flaw`: Why a grammar is unfit for parsing.
* `Grammar.Flaw.message`: The wording of a flaw.
* `Grammar.Declares`: A nonterminal heads a rule.
* `Grammar.validate`: The first flaw of a grammar, if it has one.

## Theorems

* `undeclared?_eq_none_iff`: No body mentions an undeclared nonterminal.
* `validate_eq_ok_iff`: What a grammar without flaws has.
-/

namespace EarleyForest

namespace Grammar

variable {T N : Type}

/-- A symbol that has no rule where it needs one. -/
inductive Flaw (N : Type) where
  /-- The start symbol heads no rule. -/
  | missingStart (start : N)
  /-- The body of rule number `rule` mentions a nonterminal that heads no
      rule. -/
  | undeclared (rule : Nat) (nonterminal : N)
deriving DecidableEq

/-- The wording of a flaw, given how nonterminals are written. -/
def Flaw.message (quote : N → String) : Flaw N → String
  | missingStart start => s!"start symbol {quote start} heads no rule"
  | undeclared rule nonterminal =>
    s!"rule {rule} mentions {quote nonterminal}, which heads no rule"

/-- The grammar has a rule for the nonterminal. -/
def Declares (g : Grammar T N) (n : N) : Prop := ∃ r ∈ g.rules, r.head = n

instance [DecidableEq N] (g : Grammar T N) (n : N) : Decidable (g.Declares n) :=
  inferInstanceAs (Decidable (∃ r ∈ g.rules, r.head = n))

/-- The leftmost nonterminal of a body that heads no rule of the grammar. -/
def undeclaredIn? [DecidableEq N] (g : Grammar T N) (body : List (Symbol T N)) : Option N :=
  (body.filterMap Symbol.nonterminal?).find? fun n => ¬ g.Declares n

/-- The first body that mentions an undeclared nonterminal, with that
    nonterminal. -/
def undeclared? [DecidableEq N] (g : Grammar T N) : Option (Nat × N) :=
  g.rules.zipIdx.findSome? fun (r, index) => (g.undeclaredIn? r.body).map (index, ·)

/-- Accepts the grammars in which the start symbol and every nonterminal of a
    body head a rule, and names the first offender in the others. -/
def validate [DecidableEq N] (g : Grammar T N) : Except (Flaw N) Unit :=
  if g.Declares g.start then
    match g.undeclared? with
    | some (rule, nonterminal) => .error (.undeclared rule nonterminal)
    | none => .ok ()
  else .error (.missingStart g.start)

theorem undeclaredIn?_eq_none_iff [DecidableEq N] {g : Grammar T N}
    {body : List (Symbol T N)} :
    g.undeclaredIn? body = none ↔ ∀ n, .nonterminal n ∈ body → g.Declares n := by
  simp only [undeclaredIn?, List.find?_eq_none, List.mem_filterMap, decide_eq_true_eq,
    Decidable.not_not]
  constructor
  · exact fun h n hn => h n ⟨_, hn, rfl⟩
  · -- A symbol that is a nonterminal is the one it gives.
    rintro h n ⟨s, hs, hn⟩
    cases s with
    | terminal t => simp only [Symbol.nonterminal?, reduceCtorEq] at hn
    | nonterminal m =>
        cases hn
        exact h n hs

theorem undeclared?_eq_none_iff [DecidableEq N] {g : Grammar T N} :
    g.undeclared? = none ↔ ∀ r ∈ g.rules, ∀ n, .nonterminal n ∈ r.body → g.Declares n := by
  simp only [undeclared?, List.findSome?_eq_none_iff, Prod.forall, Option.map_eq_none_iff,
    undeclaredIn?_eq_none_iff]
  constructor
  · intro h r hr
    rcases List.getElem?_of_mem hr with ⟨index, hindex⟩
    exact h r index (List.mem_zipIdx_iff_getElem?.mpr hindex)
  · exact fun h r index hr => h r (List.mem_of_getElem? (List.mem_zipIdx_iff_getElem?.mp hr))

/-- The check passes exactly the grammars in which the start symbol and every
    nonterminal of a body head a rule. -/
theorem validate_eq_ok_iff [DecidableEq N] {g : Grammar T N} :
    g.validate = .ok () ↔
      g.Declares g.start ∧ ∀ r ∈ g.rules, ∀ n, .nonterminal n ∈ r.body → g.Declares n := by
  rw [← undeclared?_eq_none_iff]
  unfold validate
  by_cases hstart : g.Declares g.start
  · cases hbody : g.undeclared? with
    | none => simp only [hstart, if_true, true_and]
    | some offender => simp only [hstart, if_true, reduceCtorEq, and_false]
  · simp only [hstart, if_false, reduceCtorEq, false_and]

end Grammar

end EarleyForest
