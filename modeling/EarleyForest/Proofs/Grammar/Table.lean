import EarleyForest.Grammar.Table
import Mathlib.Data.List.Forall2
import Mathlib.Logic.Relation

/-!
# Runs of a Table

A parser reduces until its table calls for no more. Which stack that ends with
is told by the reductions one after the other. If the states of one table stand
for those of another, and moves lead from states that stand for each other to
such states, then stacks of states that stand for each other are reduced to
such stacks.

## Main definitions

* `Table.Reduces`: A stack becomes another by reductions.

## Theorems

* `settles_of_reduces`: The stack that reductions end with.
* `replaced?_of_forall₂`, `reduced?_of_forall₂`: Two tables reduce alike.
* `Has.exists_goto`: A dot has been moved on from another state.
* `first_nil_iff`, `first_terminal_iff`, `first_nonterminal_iff`: What may come
  next.
-/

namespace EarleyForest

namespace Grammar

variable {T N : Type} {g : Grammar T N} {rest : List (Symbol T N)} {ahead next : Option T}

theorem first_nil_iff : g.First ahead [] next ↔ next = ahead := by
  constructor
  · intro h
    cases h
    rfl
  · rintro rfl
    exact .nil

theorem first_terminal_iff {t : T} : g.First ahead (.terminal t :: rest) next ↔ next = some t := by
  constructor
  · intro h
    cases h
    rfl
  · rintro rfl
    exact .terminal t rest

/-- What may come next, if a nonterminal does, is what one of its rules brings. -/
theorem first_nonterminal_iff {n : N} : g.First ahead (.nonterminal n :: rest) next ↔
    ∃ r ∈ g.rules, r.head = n ∧ g.First ahead (r.body ++ rest) next := by
  constructor
  · intro h
    cases h with
    | nonterminal rule body => exact ⟨_, rule, rfl, body⟩
  · rintro ⟨r, hr, rfl, hbody⟩
    exact .nonterminal hr hbody

end Grammar

namespace Table

variable {T N : Type} {t : Table T N} {g : Grammar T N} {ahead : Option T}
  {stack stack' : List t.State}

/-- A stack becomes another by reductions. -/
def Reduces (t : Table T N) (g : Grammar T N) (ahead : Option T) :
    List t.State → List t.State → Prop :=
  Relation.ReflTransGen fun stack stack' => t.reduced? g ahead stack = some stack'

/-- A stack settles as it does behind some reductions. -/
theorem settles_of_reduces {last : List t.State} (h : t.Reduces g ahead stack stack')
    (hsettles : t.Settles g ahead stack' last) : t.Settles g ahead stack last := by
  -- By induction on the reductions, from the first one on.
  induction h using Relation.ReflTransGen.head_induction_on with
  | refl => exact hsettles
  | head hstep _ ih => exact .reduce hstep ih

/-- The dot of an item has been moved on from another state. -/
theorem Has.exists_goto {state : t.State} {rule dot : Nat}
    (h : t.Has g state ⟨rule, dot + 1, ahead⟩) :
    ∃ before s, t.Has g before ⟨rule, dot, ahead⟩ ∧ g.symbolAt? rule dot = some s ∧
      t.goto? before s = some state := by
  cases h with
  | advance before symbol moved => exact ⟨_, _, before, symbol, moved⟩

section

variable {u : Table T N} {R : t.State → u.State → Prop}
  (hgoto : ∀ {a b s b'}, R a b → u.goto? b s = some b' → ∃ a', t.goto? a s = some a' ∧ R a' b')
  {stack' stack'' : List u.State}

include hgoto

/-- The body of a rule is replaced by its head alike. -/
theorem replaced?_of_forall₂ (h : List.Forall₂ R stack stack') {r : Rule T N}
    (hreplaced : u.replaced? r stack' = some stack'') :
    ∃ next, t.replaced? r stack = some next ∧ List.Forall₂ R next stack'' := by
  have hdrop := List.forall₂_drop r.body.length h
  unfold replaced? at hreplaced ⊢
  generalize stack.drop r.body.length = below at hdrop
  generalize stack'.drop r.body.length = below' at hdrop hreplaced
  cases hdrop with
  | nil => cases hreplaced
  | cons hbase hbelow =>
      rcases Option.map_eq_some_iff.mp hreplaced with ⟨state', hstate', rfl⟩
      rcases hgoto hbase hstate' with ⟨state, hstate, hstands⟩
      exact ⟨_, congrArg (Option.map _) hstate, .cons hstands (.cons hbase hbelow)⟩

/-- A reduction is made alike in states that call for the same rule. -/
theorem reduced?_of_forall₂ {a : t.State} {b : u.State} {below : List t.State}
    {below' : List u.State} (h : List.Forall₂ R (a :: below) (b :: below'))
    (hreduce : t.reduce? a ahead = u.reduce? b ahead)
    (hreduced : u.reduced? g ahead (b :: below') = some stack'') :
    ∃ next, t.reduced? g ahead (a :: below) = some next ∧ List.Forall₂ R next stack'' := by
  rcases Option.bind_eq_some_iff.mp hreduced with ⟨rule, hrule, hr⟩
  rcases Option.bind_eq_some_iff.mp hr with ⟨r, hr, hreplaced⟩
  rcases replaced?_of_forall₂ hgoto h hreplaced with ⟨next, hnext, hstands⟩
  refine ⟨next, ?_, hstands⟩
  rw [hrule] at hreduce
  simp only [reduced?, hreduce, Option.bind_some, hr, hnext]

end

end Table

end EarleyForest
