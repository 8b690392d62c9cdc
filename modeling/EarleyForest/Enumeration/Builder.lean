import EarleyForest.Tree.Basic

/-!
# Builders

A derivation is handed to its reader from the leaves upwards, by one call of
a builder for each subtree. The reader chooses what to make of it: the
derivation tree itself, or anything else that a leaf, an empty constituent
and a branch can be made into.

## Main definitions

* `Builder`: What is made of each kind of subtree.
* `Builder.tree`: Makes the derivation tree.
* `Call`: One use of a builder.
-/

namespace EarleyForest

/-- What is made of each kind of subtree. -/
structure Builder (T N Tok Out : Type) where
  /-- A terminal, with the token that stands in its place. -/
  leaf : T → Tok → Span → Out
  /-- A nonterminal that derives the empty input. -/
  covert : N → Span → Out
  /-- A nonterminal over what was made of its children. -/
  branch : N → Span → List Out → Out

/-- Makes the derivation tree. -/
def Builder.tree {T N Tok : Type} : Builder T N Tok (Tree N Tok) where
  leaf _ token span := .leaf token span
  covert label span := .covert label span.start
  branch label span children := .branch label span children

/-- One use of a builder, with the number of children for a branch. -/
inductive Call (T N Tok : Type) where
  | leaf (terminal : T) (token : Tok) (span : Span)
  | covert (nonterminal : N) (span : Span)
  | branch (nonterminal : N) (span : Span) (arity : Nat)
deriving DecidableEq

end EarleyForest
