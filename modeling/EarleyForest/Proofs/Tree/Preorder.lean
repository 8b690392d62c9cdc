import Mathlib.Logic.Function.Iterate
import EarleyForest.Tree.Traversal

/-!
# Walking a Tree with a Stack

The subtrees of a tree and its leaves are listed by recursion: a tree before
its children, and the children from left to right. The walks that list them
know no recursion. They keep the pending trees on a stack, take one off the
top and put its children there, the last one first, so that the first one is
on top.

What carries the walk over to the recursion is that pending trees are listed
one after the other. The stack, read from the top, is a list of pending trees,
and taking one off replaces it by its children at the same place.

## Main definitions

* `Tree.preorder`, `Tree.fringe`: The subtrees and the leaves, by recursion.
* `Tree.visit?`, `Tree.visited?`: One step of a walk with a stack, and what
  the walk comes to after a number of steps.
* `Tree.read`: One step of a walk that collects the leaves.

## Theorems

* `subtreesFrom_eq_preorderAll`, `leavesFrom_eq_fringeAll`: Pending trees are
  listed one after the other.
* `visited?_reverse`, `iterate_read_reverse`: What is on the stack is listed
  from the top.
* `traversals_agree`: The walks and the recursive listings are the same.
-/

namespace EarleyForest

namespace Tree

variable {N Tok : Type}

mutual

/-- All subtrees from left to right, each before those below it. -/
def preorder : Tree N Tok → List (Tree N Tok)
  | leaf token span => [leaf token span]
  | covert label position => [covert label position]
  | branch label span children => branch label span children :: preorderAll children

/-- The subtrees of several trees. -/
def preorderAll : List (Tree N Tok) → List (Tree N Tok)
  | [] => []
  | tree :: rest => tree.preorder ++ preorderAll rest

end

mutual

/-- The tokens of the leaves: those of the first child, then those of the
    others. -/
def fringe : Tree N Tok → List Tok
  | leaf token _ => [token]
  | covert _ _ => []
  | branch _ _ children => fringeAll children

/-- The tokens of the leaves of several trees. -/
def fringeAll : List (Tree N Tok) → List Tok
  | [] => []
  | tree :: rest => tree.fringe ++ fringeAll rest

end

/-- The token of a leaf. -/
def token? : Tree N Tok → Option Tok
  | leaf token _ => some token
  | _ => none

/-- Takes the tree on top off a stack and puts its children there, the first
    one on top. The top of the stack is its last element. -/
def visit? (stack : List (Tree N Tok)) : Option (Tree N Tok × List (Tree N Tok)) :=
  stack.getLast?.map fun tree => (tree, stack.dropLast ++ tree.children.reverse)

/-- The tree to which a walk comes when it has taken `count` trees off. -/
def visited? : Nat → List (Tree N Tok) → Option (Tree N Tok)
  | 0, stack => (visit? stack).map Prod.fst
  | count + 1, stack => (visit? stack).bind fun next => visited? count next.2

/-- Takes the tree on top off a stack. The token of a leaf comes behind those
    collected before, and the children of a branch go on the stack. -/
def read : List (Tree N Tok) × List Tok → List (Tree N Tok) × List Tok
  | (stack, tokens) =>
    match stack.getLast? with
    | none => (stack, tokens)
    | some (leaf token _) => (stack.dropLast, tokens ++ [token])
    | some (covert _ _) => (stack.dropLast, tokens)
    | some (branch _ _ children) => (stack.dropLast ++ children.reverse, tokens)

theorem preorder_eq_children (tree : Tree N Tok) :
    tree.preorder = tree :: preorderAll tree.children := by
  cases tree <;> rw [preorder] <;> rfl

theorem preorderAll_append (trees rest : List (Tree N Tok)) :
    preorderAll (trees ++ rest) = preorderAll trees ++ preorderAll rest := by
  induction trees with
  | nil => rfl
  | cons tree trees ih => rw [List.cons_append, preorderAll, preorderAll, ih, List.append_assoc]

theorem fringeAll_append (trees rest : List (Tree N Tok)) :
    fringeAll (trees ++ rest) = fringeAll trees ++ fringeAll rest := by
  induction trees with
  | nil => rfl
  | cons tree trees ih => rw [List.cons_append, fringeAll, fringeAll, ih, List.append_assoc]

/-- The leaves of several trees are those of one after the other. -/
theorem fringeAll_eq_flatMap (trees : List (Tree N Tok)) :
    fringeAll trees = trees.flatMap fringe := by
  induction trees with
  | nil => rfl
  | cons tree rest ih => rw [fringeAll, ih, List.flatMap_cons]

/-- The subtrees of pending trees are listed one tree after the other. -/
theorem subtreesFrom_eq_preorderAll (pending : List (Tree N Tok)) :
    subtreesFrom pending = preorderAll pending := by
  fun_induction subtreesFrom pending with
  | case1 => rfl
  | case2 tree pending ih =>
      rw [ih, preorderAll_append, preorderAll, preorder_eq_children, List.cons_append]

/-- So are their leaves. -/
theorem leavesFrom_eq_fringeAll (pending : List (Tree N Tok)) :
    leavesFrom pending = fringeAll pending := by
  fun_induction leavesFrom pending with
  | case1 => rfl
  | case2 token span pending ih => rw [ih, fringeAll, fringe, List.singleton_append]
  | case3 label position pending ih => rw [ih, fringeAll, fringe, List.nil_append]
  | case4 label span children pending ih => rw [ih, fringeAll_append, fringeAll, fringe]

/-- The leaves of pending trees are the tokens among their subtrees. -/
theorem leavesFrom_eq_filterMap (pending : List (Tree N Tok)) :
    leavesFrom pending = (subtreesFrom pending).filterMap token? := by
  fun_induction leavesFrom pending with
  | case1 => rw [subtreesFrom, List.filterMap_nil]
  | case2 token span pending ih =>
      simp only [subtreesFrom, List.filterMap_cons, token?, children, List.nil_append, ih]
  | case3 label position pending ih =>
      simp only [subtreesFrom, List.filterMap_cons, token?, children, List.nil_append, ih]
  | case4 label span children pending ih =>
      simp only [subtreesFrom, List.filterMap_cons, token?, Tree.children, ih]

/-- No subtree is left out and none is listed twice. -/
theorem length_subtreesFrom (pending : List (Tree N Tok)) :
    (subtreesFrom pending).length = sizeAll pending := by
  fun_induction subtreesFrom pending with
  | case1 => rfl
  | case2 tree pending ih =>
      rw [List.length_cons, ih, sizeAll_append, sizeAll, size_eq_children]
      omega

/-- The tree on top of a stack is the first pending one, and its children come
    to stand before the others. -/
theorem visit?_reverse_cons (tree : Tree N Tok) (pending : List (Tree N Tok)) :
    visit? (tree :: pending).reverse = some (tree, (tree.children ++ pending).reverse) := by
  rw [visit?, List.reverse_cons, List.getLast?_concat, List.dropLast_concat, Option.map_some,
    List.reverse_append]

/-- A walk comes to the subtrees of what is on its stack, from the top. -/
theorem visited?_reverse (count : Nat) (pending : List (Tree N Tok)) :
    visited? count pending.reverse = (subtreesFrom pending)[count]? := by
  induction count generalizing pending with
  | zero =>
      cases pending with
      | nil => rw [subtreesFrom]; rfl
      | cons tree pending =>
          rw [visited?, visit?_reverse_cons, subtreesFrom, Option.map_some, List.getElem?_cons_zero]
  | succ count ih =>
      cases pending with
      | nil => rw [subtreesFrom]; rfl
      | cons tree pending =>
          rw [visited?, visit?_reverse_cons, subtreesFrom, Option.bind_some, ih,
            List.getElem?_cons_succ]

/-- A walk that collects the leaves takes one tree off the stack for each
    subtree, and then the stack is empty. -/
theorem iterate_read_reverse (pending : List (Tree N Tok)) (tokens : List Tok) :
    read^[sizeAll pending] (pending.reverse, tokens) = ([], tokens ++ leavesFrom pending) := by
  fun_induction leavesFrom pending generalizing tokens with
  | case1 => rw [sizeAll, Function.iterate_zero_apply, List.reverse_nil, List.append_nil]
  | case2 token span pending ih =>
      have hstep : read ((leaf token span :: pending).reverse, tokens) =
          (pending.reverse, tokens ++ [token]) := by
        simp only [read, List.reverse_cons, List.getLast?_concat, List.dropLast_concat]
      rw [sizeAll, size, Nat.add_comm, Function.iterate_succ_apply, hstep, ih, List.append_assoc,
        List.singleton_append]
  | case3 label position pending ih =>
      have hstep : read ((covert label position :: pending).reverse, tokens) =
          (pending.reverse, tokens) := by
        simp only [read, List.reverse_cons, List.getLast?_concat, List.dropLast_concat]
      rw [sizeAll, size, Nat.add_comm, Function.iterate_succ_apply, hstep, ih]
  | case4 label span children pending ih =>
      -- The branch goes, its children stay to be read, and that is one tree less.
      have hstep : read ((branch label span children :: pending).reverse, tokens) =
          ((children ++ pending).reverse, tokens) := by
        simp only [read, List.reverse_cons, List.getLast?_concat, List.dropLast_concat,
          List.reverse_append]
      have hsize : sizeAll (branch label span children :: pending) =
          sizeAll (children ++ pending) + 1 := by
        rw [sizeAll, size, sizeAll_append]
        omega
      rw [hsize, Function.iterate_succ_apply, hstep, ih]

/-- The walks with a stack and the recursive listings are the same. A walk over
    the subtrees comes to each of them once, a tree before its children and these
    from left to right, and then to nothing. The leaves are those of the children
    one after the other, which the walk that collects them has when its stack is
    empty, and they are the tokens met among the subtrees, in their order. -/
theorem traversals_agree (tree : Tree N Tok) :
    tree.subtrees = tree.preorder ∧ tree.subtrees.length = tree.size ∧
    (∀ count, visited? count [tree] = tree.preorder[count]?) ∧
    tree.leaves = tree.fringe ∧
    (∀ label span (children : List (Tree N Tok)),
      (branch label span children).leaves = children.flatMap leaves) ∧
    read^[tree.size] ([tree], []) = ([], tree.fringe) ∧
    tree.leaves = tree.subtrees.filterMap token? := by
  have hsubtrees : tree.subtrees = tree.preorder := by
    rw [subtrees, subtreesFrom_eq_preorderAll, preorderAll, preorderAll, List.append_nil]
  have hleaves : ∀ tree : Tree N Tok, tree.leaves = tree.fringe := by
    intro tree
    rw [leaves, leavesFrom_eq_fringeAll, fringeAll, fringeAll, List.append_nil]
  have hsize : sizeAll [tree] = tree.size := by
    rw [sizeAll, sizeAll, Nat.add_zero]
  refine ⟨hsubtrees, ?_, fun count => ?_, hleaves tree, fun label span children => ?_, ?_, ?_⟩
  · rw [subtrees, length_subtreesFrom, hsize]
  · rw [← hsubtrees]
    exact visited?_reverse count [tree]
  · rw [hleaves, fringe, fringeAll_eq_flatMap]
    exact congrArg children.flatMap (funext fun child => (hleaves child).symm)
  · have hread := iterate_read_reverse [tree] []
    rw [hsize, List.nil_append] at hread
    rw [← hleaves]
    exact hread
  · exact leavesFrom_eq_filterMap [tree]

end Tree

end EarleyForest
