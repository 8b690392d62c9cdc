import Mathlib.Algebra.Group.Action.Defs
import Mathlib.Algebra.Order.BigOperators.Group.List
import Mathlib.Algebra.Order.Ring.Nat
import EarleyForest.Proofs.Parser.Beginning
import EarleyForest.Proofs.Parser.Listing
import EarleyForest.Proofs.Parser.Reordered

/-!
# Packing and Ambiguity

A node is packed if there is more than one way to derive it. This is told by
the node alone, but it counts for the derivations of every node above it.

If no node below the root is packed, there is no choice to make, and so one
derivation, whatever cycles the grammar has. If some node below the root is
packed and none leads back to itself, each choice can be completed, and the one
at the packed node makes for two derivations at least.

## Theorems

* `length_nestedBelow`, `length_nested`: How many derivations there are of a
  family and of a node.
* `length_nested_le_one`: Without packed nodes there is one at most.
* `one_le_length_nested`: Without cycles there is one at least.
* `two_le_length_nested`: A packed node makes for two.
* `yields_by_packing`: How many things an enumeration gives.
-/

namespace EarleyForest

variable {T N Tok Out : Type}

namespace Enumeration

section

variable {f : Forest T N} {tokens : List Tok} {builder : Builder T N Tok Out}
  {path : List NodeId} {id : NodeId} {node : Node T N}

/-- A family of two children has a derivation for each pair of theirs. -/
theorem length_nestedBelow (family : Family) :
    (nestedBelow f tokens builder path family).length =
      (family.children.map fun child => (nested f tokens builder path child).length).prod := by
  cases family with
  | epsilon => rfl
  | unary child =>
      simp only [nestedBelow, Family.children, List.map_cons, List.map_nil, List.prod_cons,
        List.prod_nil, Nat.mul_one]
  | binary left right =>
      simp only [nestedBelow, Family.children, List.map_cons, List.map_nil, List.prod_cons,
        List.prod_nil, Nat.mul_one, List.length_flatMap, List.length_map, List.map_const',
        List.sum_replicate_nat]

/-- A node has the derivations of its families. -/
theorem length_nested (hnode : f.node? id = some node) (hlabel : ∀ t, node.label ≠ .terminal t)
    (hpath : id ∉ path) : (nested f tokens builder path id).length =
      (node.families.map fun family =>
        (nestedBelow f tokens builder (id :: path) family).length).sum := by
  rw [nested_inner hnode hlabel hpath]
  simp only [List.length_flatMap, List.length_map]

/-- If no node below is packed, there is one derivation at most. -/
theorem length_nested_le_one (hpacked : ∀ v below, Relation.ReflTransGen f.Child v id →
      f.node? v = some below → below.isPacked = false) :
    (nested f tokens builder path id).length ≤ 1 := by
  induction path, id using nested.induct f with
  | case1 path id hnode =>
      rw [nested_missing hnode]
      exact Nat.zero_le 1
  | case2 path id node hnode t hlabel =>
      rw [nested_leaf hnode hlabel, List.length_map]
      exact Option.length_toList_le
  | case3 path id node hnode hpath hlabel =>
      rw [nested_cycle hnode hlabel hpath]
      exact Nat.zero_le 1
  | case4 path id node hnode hpath hlabel ih =>
      have hbelow : ∀ family ∈ node.families,
          (nestedBelow f tokens builder (id :: path) family).length ≤ 1 := by
        intro family hfamily
        rw [length_nestedBelow, ← Nat.one_pow (family.children.map fun child =>
          (nested f tokens builder (id :: path) child).length).length]
        refine List.prod_le_pow_card _ 1 fun count hcount => ?_
        rcases List.mem_map.mp hcount with ⟨child, hchild, rfl⟩
        have hstep : f.Child child id :=
          ⟨node, hnode, List.mem_flatMap.mpr ⟨family, hfamily, hchild⟩⟩
        exact ih child fun v below hv => hpacked v below (hv.tail hstep)
      have hsingle : node.families.length ≤ 1 :=
        Nat.le_of_not_lt (of_decide_eq_false (hpacked id node .refl hnode))
      rw [length_nested hnode hlabel hpath]
      refine Nat.le_trans (List.sum_le_card_nsmul _ 1 fun count hcount => ?_) ?_
      · rcases List.mem_map.mp hcount with ⟨family, hfamily, rfl⟩
        exact hbelow family hfamily
      · rw [List.length_map, smul_eq_mul, Nat.mul_one]
        exact hsingle

variable {g : Grammar T N} {input : List T}

/-- The children of a node of a sound forest have tokens if the node has, and
    the way down to them is clear if the way to the node is. -/
theorem child_of_clear (hsound : f.Sound g input) (hnode : f.node? id = some node)
    (htokens : node.span.stop ≤ tokens.length) (hclear : f.Clear path id) {family : Family}
    (hfamily : family ∈ node.families) {child : NodeId} (hchild : child ∈ family.children) :
    ∃ label span, f.Has child label span ∧ span.stop ≤ tokens.length ∧
      f.Clear (id :: path) child := by
  have hlists : f.Lists id node.label node.span family := ⟨node.families, hnode, hfamily⟩
  rcases hsound.child (hsound.way hlists) hchild with ⟨label, span, hhas, _, hstop⟩
  exact ⟨label, span, hhas, Nat.le_trans hstop htokens,
    hclear.child (Forest.child_iff.mpr ⟨_, _, family, hlists, hchild⟩)⟩

/-- If no node below leads back to itself or to the path, and there are tokens,
    there is one derivation at least. -/
theorem one_le_length_nested (hsound : f.Sound g input) {label : Label T N} {span : Span}
    (hhas : f.Has id label span) (htokens : span.stop ≤ tokens.length)
    (hclear : f.Clear path id) : 1 ≤ (nested f tokens builder path id).length := by
  induction path, id using nested.induct f generalizing label span with
  | case1 path id hnode =>
      exact absurd hnode hhas.node?_ne_none
  | case2 path id node hnode t hlabel =>
      rcases hhas.eq (Forest.has_of_node? hnode) with ⟨rfl, rfl⟩
      rw [hlabel] at hhas
      rw [nested_leaf hnode hlabel, List.getElem?_eq_getElem (hsound.start_lt hhas htokens)]
      exact Nat.le_refl 1
  | case3 path id node hnode hpath hlabel => exact absurd hpath hclear.not_mem
  | case4 path id node hnode hpath hlabel ih =>
      rcases hhas.eq (Forest.has_of_node? hnode) with ⟨rfl, rfl⟩
      -- Any family will do.
      rcases List.exists_mem_of_ne_nil _ (hsound.families_ne_nil hnode hlabel) with
        ⟨family, hfamily⟩
      have hone : 1 ≤ (nestedBelow f tokens builder (id :: path) family).length := by
        rw [length_nestedBelow]
        refine List.one_le_prod_of_one_le fun count hcount => ?_
        rcases List.mem_map.mp hcount with ⟨child, hchild, rfl⟩
        rcases child_of_clear hsound hnode htokens hclear hfamily hchild with
          ⟨label', span', hhas', htokens', hclear'⟩
        exact ih child hhas' htokens' hclear'
      rw [length_nested hnode hlabel hpath]
      exact Nat.le_trans hone (List.single_le_sum (fun _ _ => Nat.zero_le _) _
        (List.mem_map.mpr ⟨family, hfamily, rfl⟩))

/-- So each child of a family has one at least. -/
theorem one_le_of_mem_children (hsound : f.Sound g input) (hnode : f.node? id = some node)
    (htokens : node.span.stop ≤ tokens.length) (hclear : f.Clear path id) {family : Family}
    (hfamily : family ∈ node.families) :
    ∀ count ∈ family.children.map fun child =>
      (nested f tokens builder (id :: path) child).length, 1 ≤ count := by
  intro count hcount
  rcases List.mem_map.mp hcount with ⟨child, hchild, rfl⟩
  rcases child_of_clear hsound hnode htokens hclear hfamily hchild with
    ⟨label, span, hhas, htokens', hclear'⟩
  exact one_le_length_nested hsound hhas htokens' hclear'

/-- If some node below is packed besides, there are two. -/
theorem two_le_length_nested (hsound : f.Sound g input) {label : Label T N} {span : Span}
    (hhas : f.Has id label span) (htokens : span.stop ≤ tokens.length)
    (hclear : f.Clear path id) {v : NodeId} {below : Node T N}
    (hv : Relation.ReflTransGen f.Child v id) (hbelow : f.node? v = some below)
    (hpacked : below.isPacked = true) : 2 ≤ (nested f tokens builder path id).length := by
  have hlength : 1 < below.families.length := of_decide_eq_true hpacked
  -- By induction along the loops, which come to the packed node at last.
  induction path, id using nested.induct f generalizing label span with
  | case1 path id hnode =>
      exact absurd hnode hhas.node?_ne_none
  | case2 path id node hnode t hlabel =>
      have hhas' := Forest.has_of_node? hnode
      rw [hlabel] at hhas'
      rcases Relation.ReflTransGen.cases_tail hv with rfl | ⟨child, _, hchild⟩
      · -- A leaf is not packed.
        rw [hnode, Option.some.injEq] at hbelow
        rw [← hbelow, (hsound.bare hnode).mpr ⟨t, hlabel⟩] at hlength
        exact absurd hlength (Nat.not_lt_zero _)
      · exact absurd hchild (hsound.not_child_of_terminal hhas')
  | case3 path id node hnode hpath hlabel => exact absurd hpath hclear.not_mem
  | case4 path id node hnode hpath hlabel ih =>
      rcases hhas.eq (Forest.has_of_node? hnode) with ⟨rfl, rfl⟩
      rw [length_nested hnode hlabel hpath]
      rcases Relation.ReflTransGen.cases_tail hv with rfl | ⟨child, hv', hchild⟩
      · -- The node is packed itself, and each of its families counts.
        rw [hnode, Option.some.injEq] at hbelow
        rw [← hbelow, ← List.length_map] at hlength
        refine Nat.le_trans hlength (List.length_le_sum_of_one_le _ fun count hcount => ?_)
        rcases List.mem_map.mp hcount with ⟨family, hfamily, rfl⟩
        rw [length_nestedBelow]
        exact List.one_le_prod_of_one_le
          (one_le_of_mem_children hsound hnode htokens hclear hfamily)
      · -- The packed node is below a child, and so there are two below the family
        -- of that child.
        rcases hchild with ⟨node', hnode', hmem⟩
        rw [hnode, Option.some.injEq] at hnode'
        subst hnode'
        rcases List.mem_flatMap.mp hmem with ⟨family, hfamily, hchild⟩
        rcases child_of_clear hsound hnode htokens hclear hfamily hchild with
          ⟨label', span', hhas', htokens', hclear'⟩
        have htwo := ih child hhas' htokens' hclear' hv'
        refine Nat.le_trans ?_ (List.single_le_sum (fun _ _ => Nat.zero_le _) _
          (List.mem_map.mpr ⟨family, hfamily, rfl⟩))
        rw [length_nestedBelow]
        exact Nat.le_trans htwo (List.single_le_prod
          (one_le_of_mem_children hsound hnode htokens hclear hfamily) _
          (List.mem_map.mpr ⟨child, hchild, rfl⟩))

end

end Enumeration

namespace Parser

variable [DecidableEq T] [DecidableEq N]

/-- From any node of a parse that is no part of a rule's body, with enough
    tokens, an enumeration gives exactly one thing if no node below is packed,
    and at least two if some node below is and none leads back to itself. -/
theorem yields_by_packing (p : Parser T N) (input : List T) (tokens : List Tok) {id : NodeId}
    {node : Node T N} (hnode : (p.parse input).forest.node? id = some node)
    (hlabel : node.label.isIntermediate = false) (htokens : node.span.stop ≤ tokens.length)
    (builder : Builder T N Tok Out) :
    ∃ (e : Enumeration T N Tok Out) (outs : List Out),
      Enumeration.ofRoot (p.parse input).forest (some id) tokens builder = .ok e ∧
      e.Yields outs ∧ (∀ count, e.given? count = outs[count]?) ∧
      ((∀ v below, Relation.ReflTransGen (p.parse input).forest.Child v id →
        (p.parse input).forest.node? v = some below → below.isPacked = false) →
        outs.length = 1) ∧
      ((∃ v below, Relation.ReflTransGen (p.parse input).forest.Child v id ∧
        (p.parse input).forest.node? v = some below ∧ below.isPacked = true) →
        (∀ v, Relation.ReflTransGen (p.parse input).forest.Child v id →
          ¬ Relation.TransGen (p.parse input).forest.Child v v) → 2 ≤ outs.length) := by
  have hexact : (p.parse input).forest.Exact p.grammar input := p.grammar.parse_exact input
  have hhas := Forest.has_of_node? hnode
  rcases Enumeration.yields_nested hexact.sound hhas hlabel htokens builder with ⟨e, he, hyields⟩
  -- Each derivation of the root gives one thing.
  have hsingle : Enumeration.nested (p.parse input).forest tokens builder [] id =
      (Enumeration.nested (p.parse input).forest tokens builder [] id).flatten.map
        fun out => [out] := Enumeration.derivations_of_nested hnode hlabel
  have hlength := congrArg List.length hsingle
  rw [List.length_map] at hlength
  refine ⟨e, _, he, hyields, Enumeration.given?_of_yields hyields, fun hpacked => ?_,
    fun hpacked hacyclic => ?_⟩
  · have hpos := List.length_pos_of_ne_nil (Enumeration.nested_ne_nil hexact builder hhas htokens)
    rw [← hlength]
    exact Nat.le_antisymm (Enumeration.length_nested_le_one hpacked) hpos
  · rcases hpacked with ⟨v, below, hv, hbelow, hpacked⟩
    rw [← hlength]
    exact Enumeration.two_le_length_nested hexact.sound hhas htokens
      (fun w hw => ⟨List.not_mem_nil, hacyclic w hw⟩) hv hbelow hpacked

/-- A letter in two ways gives two trees, and a word of two letters that has no
    packed node gives one. -/
theorem forked_yields_by_packing :
    (∃ (e : Enumeration Char Nat Char (Tree Nat Char)) (trees : List (Tree Nat Char)),
      Enumeration.ofRoot (forked.parse ['a']).forest (some 3) ['a'] Builder.tree = .ok e ∧
      e.Yields trees ∧ 2 ≤ trees.length) ∧
    ∃ (e : Enumeration Char Nat Char (Tree Nat Char)) (trees : List (Tree Nat Char)),
      Enumeration.ofRoot (repeated.parse ['a', 'a']).forest (some 3) ['a', 'a'] Builder.tree =
        .ok e ∧ e.Yields trees ∧ trees.length = 1 := by
  have hrepeated : (repeated.parse ['a', 'a']).forest.node? 3 =
      some ⟨.nonterminal 0, ⟨0, 2⟩, [.binary 1 2]⟩ := by decide
  have hnone : ∀ v < (repeated.parse ['a', 'a']).forest.size,
      ∀ below ∈ (repeated.parse ['a', 'a']).forest.node? v, below.isPacked = false := by decide
  rcases yields_by_packing forked ['a'] ['a'] forked_node_three rfl (Nat.le_refl 1)
    Builder.tree with ⟨e, trees, he, hyields, _, _, htwo⟩
  rcases yields_by_packing repeated ['a', 'a'] ['a', 'a'] hrepeated rfl (Nat.le_refl 2)
    Builder.tree with ⟨e', trees', he', hyields', _, hone, _⟩
  exact ⟨⟨e, trees, he, hyields, htwo ⟨3, _, .refl, forked_node_three, rfl⟩ fun v _ =>
      Forest.not_cycle_of_lt (by decide) v⟩,
    e', trees', he', hyields', hone fun v below _ hbelow =>
      hnone v (Forest.has_of_node? hbelow).lt_size below hbelow⟩

end Parser

end EarleyForest
