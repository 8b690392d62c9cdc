import EarleyForest.Forest.Basic

/-!
# Derivation Trees

One derivation of an input as a tree. A branch has as many children as the
rule that it stands for has symbols; leaves carry tokens, which need not be
the terminals that were parsed.

## Main definitions

* `Tree`: A leaf, an empty constituent or a branch.
* `Tree.label?`, `Tree.span`, `Tree.children`: The parts of a tree.
-/

namespace EarleyForest

/-- A derivation tree. -/
inductive Tree (N Tok : Type) where
  | leaf (token : Tok) (span : Span)
  /-- A nonterminal that derives the empty input at a position. -/
  | covert (label : N) (position : Nat)
  | branch (label : N) (span : Span) (children : List (Tree N Tok))

namespace Tree

variable {N Tok : Type}

/-- The nonterminal at the root. Leaves have none. -/
def label? : Tree N Tok → Option N
  | leaf _ _ => none
  | covert label _ => some label
  | branch label _ _ => some label

/-- The positions that a tree covers. -/
def span : Tree N Tok → Span
  | leaf _ span => span
  | covert _ position => ⟨position, position⟩
  | branch _ span _ => span

/-- The trees right below the root. -/
def children : Tree N Tok → List (Tree N Tok)
  | branch _ _ children => children
  | _ => []

mutual

/-- Equality of trees is decided node by node. -/
def decEq [DecidableEq N] [DecidableEq Tok] : (a b : Tree N Tok) → Decidable (a = b)
  | leaf token span, leaf token' span' =>
    decidable_of_iff (token = token' ∧ span = span') (by simp only [leaf.injEq])
  | covert label position, covert label' position' =>
    decidable_of_iff (label = label' ∧ position = position') (by simp only [covert.injEq])
  | branch label span children, branch label' span' children' =>
    have := decEqList children children'
    decidable_of_iff (label = label' ∧ span = span' ∧ children = children')
      (by simp only [branch.injEq])
  | leaf _ _, covert _ _ => isFalse (by simp only [reduceCtorEq, not_false_eq_true])
  | leaf _ _, branch _ _ _ => isFalse (by simp only [reduceCtorEq, not_false_eq_true])
  | covert _ _, leaf _ _ => isFalse (by simp only [reduceCtorEq, not_false_eq_true])
  | covert _ _, branch _ _ _ => isFalse (by simp only [reduceCtorEq, not_false_eq_true])
  | branch _ _ _, leaf _ _ => isFalse (by simp only [reduceCtorEq, not_false_eq_true])
  | branch _ _ _, covert _ _ => isFalse (by simp only [reduceCtorEq, not_false_eq_true])

/-- Equality of lists of trees is decided tree by tree. -/
def decEqList [DecidableEq N] [DecidableEq Tok] : (a b : List (Tree N Tok)) → Decidable (a = b)
  | [], [] => isTrue rfl
  | a :: as, b :: bs =>
    have := decEq a b
    have := decEqList as bs
    decidable_of_iff (a = b ∧ as = bs) (by simp only [List.cons.injEq])
  | [], _ :: _ => isFalse (by simp only [reduceCtorEq, not_false_eq_true])
  | _ :: _, [] => isFalse (by simp only [reduceCtorEq, not_false_eq_true])

end

instance [DecidableEq N] [DecidableEq Tok] : DecidableEq (Tree N Tok) := decEq

mutual

/-- The number of subtrees, the tree itself included. -/
def size : Tree N Tok → Nat
  | leaf _ _ => 1
  | covert _ _ => 1
  | branch _ _ children => sizeAll children + 1

/-- The number of subtrees of several trees. -/
def sizeAll : List (Tree N Tok) → Nat
  | [] => 0
  | tree :: rest => tree.size + sizeAll rest

end

theorem size_eq_children (tree : Tree N Tok) : tree.size = sizeAll tree.children + 1 := by
  cases tree <;> simp only [size, children, sizeAll]

theorem sizeAll_append (a b : List (Tree N Tok)) :
    sizeAll (a ++ b) = sizeAll a + sizeAll b := by
  induction a with
  | nil => simp only [List.nil_append, sizeAll, Nat.zero_add]
  | cons tree rest ih => simp only [List.cons_append, sizeAll, ih, Nat.add_assoc]

end Tree

end EarleyForest
