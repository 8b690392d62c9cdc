import EarleyForest.Proofs.Enumeration.Cycles
import EarleyForest.Tree.Printer

/-!
# The Subtrees of a Derivation

A tree that shows a derivation can be checked piece by piece. Each of its
subtrees shows a derivation of its own, so a branch anywhere inside stands for
a rule of the grammar, its children lie side by side without a gap, and the
leaves carry the tokens in their places. Read from left to right the leaves
are the tokens that the tree covers.

## Main definitions

* `Tree.Tile`: Trees lie side by side without a gap.
* `Tree.Proper`: What a tree has to be, apart from the trees below it.

## Theorems

* `mem_subtrees_iff`: The subtrees are the tree and all that is below it.
* `leavesFrom_append`: Pending trees are read one after the other.
* `Shows.proper`: The tree of a derivation is what it has to be.
* `Shows.of_below`: The trees inside the tree of a derivation show
  derivations.
* `Shows.leaves_eq`: The leaves of a derivation are the tokens that it covers.
-/

namespace EarleyForest

namespace Tree

variable {T N Tok : Type}

/-- Trees lie side by side from one position to another without a gap. -/
def Tile : List (Tree N Tok) → Nat → Nat → Prop
  | [], i, j => i = j
  | tree :: rest, i, j =>
    tree.span.start = i ∧ i ≤ tree.span.stop ∧ Tile rest tree.span.stop j

/-- What a tree has to be, apart from the trees below it, if it shows a
    derivation: a leaf carries the token in its place, an empty constituent
    stands for an empty rule, and the children of a branch lie side by side
    over its span and stand for the body of a rule of its label. -/
def Proper (g : Grammar T N) (input : List T) (tokens : List Tok) : Tree N Tok → Prop
  | leaf token span => ∃ position, span = ⟨position, position + 1⟩ ∧
    tokens[position]? = some token
  | covert label _ => Rule.epsilon label ∈ g.rules
  | branch label span children => Tile children span.start span.stop ∧
    ∃ r ∈ g.rules, r.head = label ∧ r.body ≠ [] ∧
      children.map (symbol? input) = r.body.map some

theorem mem_subtreesFrom_iff {sub : Tree N Tok} {pending : List (Tree N Tok)} :
    sub ∈ subtreesFrom pending ↔ ∃ tree ∈ pending, Relation.ReflTransGen Child sub tree := by
  fun_induction subtreesFrom pending with
  | case1 => simp only [List.not_mem_nil, false_and, exists_false]
  | case2 tree pending ih =>
      rw [List.mem_cons, ih]
      constructor
      · rintro (rfl | ⟨top, htop, hsub⟩)
        · exact ⟨sub, List.mem_cons_self, .refl⟩
        · rcases List.mem_append.mp htop with hchild | hpending
          · exact ⟨tree, List.mem_cons_self, hsub.tail hchild⟩
          · exact ⟨top, List.mem_cons_of_mem _ hpending, hsub⟩
      · rintro ⟨top, htop, hsub⟩
        rcases List.mem_cons.mp htop with rfl | hpending
        · -- Inside the tree visited now, it is that tree or inside a child.
          rcases Relation.ReflTransGen.cases_tail hsub with rfl | ⟨child, hsub, hchild⟩
          · exact Or.inl rfl
          · exact Or.inr ⟨child, List.mem_append_left _ hchild, hsub⟩
        · exact Or.inr ⟨top, List.mem_append_right _ hpending, hsub⟩

/-- The subtrees are the tree itself and all that is below it. -/
theorem mem_subtrees_iff {sub tree : Tree N Tok} :
    sub ∈ tree.subtrees ↔ Relation.ReflTransGen Child sub tree := by
  rw [subtrees, mem_subtreesFrom_iff]
  simp only [List.mem_singleton, exists_eq_left]

/-- Pending trees are read one after the other. -/
theorem leavesFrom_append (trees pending : List (Tree N Tok)) :
    leavesFrom (trees ++ pending) = leavesFrom trees ++ leavesFrom pending := by
  fun_induction leavesFrom trees with
  | case1 => rfl
  | case2 token span rest ih => rw [List.cons_append, leavesFrom, ih, List.cons_append]
  | case3 label position rest ih => rw [List.cons_append, leavesFrom, ih]
  | case4 label span children rest ih =>
      rw [List.cons_append, leavesFrom, ← List.append_assoc, ih]

variable {g : Grammar T N} {input : List T} {tokens : List Tok}

/-- The trees that show symbols side by side lie side by side. -/
theorem ShowAll.tile {trees : List (Tree N Tok)} {symbols : List (Symbol T N)} {i j : Nat}
    (h : ShowAll g input tokens trees symbols i j) : Tile trees i j := by
  induction trees generalizing symbols i with
  | nil =>
      cases h
      rfl
  | cons tree rest ih =>
      cases h with
      | cons hfirst hrest =>
          rw [Tile, hfirst.span_eq]
          exact ⟨rfl, (derives_of_shows hfirst).le, ih hrest⟩

/-- Trees that show symbols stand for these symbols, one each. -/
theorem ShowAll.map_symbol? {trees : List (Tree N Tok)} {symbols : List (Symbol T N)} {i j : Nat}
    (h : ShowAll g input tokens trees symbols i j) :
    trees.map (symbol? input) = symbols.map some := by
  induction trees generalizing symbols i with
  | nil =>
      cases h
      rfl
  | cons tree rest ih =>
      cases h with
      | cons hfirst hrest => rw [List.map_cons, List.map_cons, hfirst.symbol?_eq, ih hrest]

/-- The tree of a derivation is what it has to be. -/
theorem Shows.proper {tree : Tree N Tok} {s : Symbol T N} {i j : Nat}
    (h : tree.Shows g input tokens s i j) : tree.Proper g input tokens := by
  cases h with
  | leaf here carried => exact ⟨i, rfl, carried⟩
  | covert i rule => exact rule
  | branch rule body parts => exact ⟨parts.tile, _, rule, rfl, body, parts.map_symbol?⟩

/-- The trees inside the tree of a derivation show derivations. -/
theorem Shows.of_below {tree below : Tree N Tok} {s : Symbol T N} {i j : Nat}
    (h : tree.Shows g input tokens s i j) (hbelow : Relation.ReflTransGen Child below tree) :
    ∃ s' k l, below.Shows g input tokens s' k l := by
  -- From the whole tree inwards, each step leads to a tree for a symbol of a
  -- body.
  induction hbelow using Relation.ReflTransGen.head_induction_on with
  | refl => exact ⟨s, i, j, h⟩
  | head hchild _ ih =>
      rcases ih with ⟨_, _, _, habove⟩
      rcases habove.child hchild with ⟨_, _, _, s', _, k, l, hshows⟩
      exact ⟨s', k, l, hshows⟩

/-- Neighbouring stretches of a list are one stretch together. -/
theorem extract_append_extract {α : Type} (l : List α) {i k j : Nat} (hik : i ≤ k) (hkj : k ≤ j) :
    l.extract i k ++ l.extract k j = l.extract i j := by
  have hlength : j - i = (k - i) + (j - k) := by omega
  have hdrop : l.drop k = (l.drop i).drop (k - i) := by
    rw [List.drop_drop, Nat.add_sub_of_le hik]
  rw [List.extract_eq_take_drop, List.extract_eq_take_drop, List.extract_eq_take_drop, hlength,
    List.take_add, hdrop]

mutual

/-- The leaves of the tree of a derivation are the tokens that it covers. -/
theorem Shows.leaves_eq {tree : Tree N Tok} {s : Symbol T N} {i j : Nat} :
    tree.Shows g input tokens s i j → tree.leaves = tokens.extract i j
  | .leaf (i := i) _ carried => by
      rcases List.getElem?_eq_some_iff.mp carried with ⟨hlt, hget⟩
      rw [List.extract_eq_take_drop, Nat.add_sub_cancel_left, List.drop_eq_getElem_cons hlt, hget]
      simp only [leaves, leavesFrom, List.take_succ_cons, List.take_zero]
  | .covert i _ => by
      rw [List.extract_eq_take_drop, Nat.sub_self, List.take_zero]
      simp only [leaves, leavesFrom]
  | .branch _ _ parts => by
      rw [leaves, leavesFrom, List.append_nil]
      exact ShowAll.leavesFrom_eq parts

/-- Side by side, trees have the tokens that they cover together. -/
theorem ShowAll.leavesFrom_eq {trees : List (Tree N Tok)} {symbols : List (Symbol T N)}
    {i j : Nat} : ShowAll g input tokens trees symbols i j →
      leavesFrom trees = tokens.extract i j
  | .nil i => by
      rw [List.extract_eq_take_drop, Nat.sub_self, List.take_zero, leavesFrom]
  | .cons first behind => by
      have hfirst := Shows.leaves_eq first
      have hrest := ShowAll.leavesFrom_eq behind
      rw [leaves] at hfirst
      rw [← List.singleton_append, leavesFrom_append, hfirst, hrest]
      exact extract_append_extract tokens (derives_of_shows first).le
        (derives_of_showAll behind).le

end

end Tree

end EarleyForest
