import EarleyForest.Tree.Basic

/-!
# Walks over Trees

The subtrees of a tree and its leaves, both from left to right. The walks
keep a list of the trees still to be visited. Visiting a tree takes it off
the front and puts its children there, so a tree comes before its children
and everything below one child comes before the next.

## Main definitions

* `Tree.subtrees`: All subtrees, each before those below it.
* `Tree.leaves`: The tokens of the leaves.
-/

namespace EarleyForest

namespace Tree

variable {N Tok : Type}

/-- The subtrees of pending trees, the first pending tree being visited
    next. -/
def subtreesFrom : List (Tree N Tok) → List (Tree N Tok)
  | [] => []
  | tree :: pending => tree :: subtreesFrom (tree.children ++ pending)
termination_by pending => sizeAll pending
decreasing_by
  -- The children together are smaller than the tree that they replace.
  simp only [sizeAll_append, sizeAll, size_eq_children]
  omega

/-- All subtrees, the tree itself included, each before those below it. -/
def subtrees (tree : Tree N Tok) : List (Tree N Tok) := subtreesFrom [tree]

/-- The tokens of pending trees, the first pending tree being visited next. -/
def leavesFrom : List (Tree N Tok) → List Tok
  | [] => []
  | leaf token _ :: pending => token :: leavesFrom pending
  | covert _ _ :: pending => leavesFrom pending
  | branch _ _ children :: pending => leavesFrom (children ++ pending)
termination_by pending => sizeAll pending
decreasing_by
  all_goals simp only [sizeAll_append, sizeAll, size]; omega

/-- The tokens of the leaves from left to right. -/
def leaves (tree : Tree N Tok) : List Tok := leavesFrom [tree]

end Tree

end EarleyForest
