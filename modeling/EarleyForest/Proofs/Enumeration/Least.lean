import Mathlib.Order.WellFounded
import EarleyForest.Proofs.Enumeration.Descent
import EarleyForest.Proofs.Enumeration.Families

/-!
# Smallest Derivations

Among the derivations of what a node says there is a smallest one. What is
below it is smaller, and so are the smallest derivations of the children. So
on the way down from one smallest derivation to another no node comes up whose
smallest derivation is larger, and those of the nodes above all are. A walk
that takes the right families therefore never meets its own path, whatever
cycles there are in the forest.

The input stands in for the tokens here. Smallest derivations only show the
way; a walk along it can be given any tokens and any builder.

## Main definitions

* `Forest.Least`: Trees show what a node says, and no others are smaller.

## Theorems

* `exists_family`: Trees for a node are put together by one of its families.
* `Least.portion`: The children of a smallest derivation have smaller ones.
* `nested_ne_nil`: There is a derivation below every node.
-/

namespace EarleyForest

variable {T N Tok Out : Type} {g : Grammar T N} {input : List T} {tokens : List Tok}
  {f : Forest T N}

namespace Forest

/-- Trees show what a node says, and no other trees that do are smaller. -/
def Least (g : Grammar T N) (input : List T) (f : Forest T N) (id : NodeId)
    (trees : List (Tree N T)) : Prop :=
  f.Shown g input input id trees ∧
    ∀ others, f.Shown g input input id others → Tree.sizeAll trees ≤ Tree.sizeAll others

/-- If what a node says is shown at all, then it is by smallest trees. -/
theorem Shown.exists_least {id : NodeId} {trees : List (Tree N T)}
    (h : f.Shown g input input id trees) :
    ∃ least, f.Least g input id least ∧ Tree.sizeAll least ≤ Tree.sizeAll trees := by
  rcases (measure Tree.sizeAll).wf.has_min {trees | f.Shown g input input id trees} ⟨trees, h⟩ with
    ⟨least, hshown, hleast⟩
  exact ⟨least, ⟨hshown, fun others hothers => Nat.le_of_not_lt (hleast others hothers)⟩,
    Nat.le_of_not_lt (hleast trees h)⟩

variable [DecidableEq T] [DecidableEq N]

/-- Trees for a node that is no leaf are put together by one of its
    families. -/
theorem exists_family (hexact : f.Exact g input) {id : NodeId} {label : Label T N} {span : Span}
    (hhas : f.Has id label span) (hlabel : ∀ t, label ≠ .terminal t) {trees : List (Tree N Tok)}
    (hshown : f.Shown g input tokens id trees) :
    ∃ family below, f.Lists id label span family ∧
      trees = Enumeration.assemble Builder.tree label span family below ∧
      f.ShownBelow g input tokens family below := by
  rcases span with ⟨i, j⟩
  cases label with
  | terminal t => exact absurd rfl (hlabel t)
  | intermediate rule dot =>
      rcases families_of_intermediate hexact hhas hshown with ⟨family, hfamily⟩
      rcases (hfamily family).mp rfl with ⟨hlists, hbelow⟩
      exact ⟨family, trees, hlists, rfl, hbelow⟩
  | nonterminal n =>
      have hhas' : f.Has id (Symbol.nonterminal n : Symbol T N).label ⟨i, j⟩ := hhas
      rcases (shown_symbol_iff hhas').mp hshown with ⟨tree, rfl, hshows⟩
      cases hshows with
      | covert _ hrule => exact ⟨.epsilon, [], hexact.lists hhas (.epsilon hrule), rfl, rfl⟩
      | @branch r children _ _ hrule hbody hparts =>
          rcases families_of_branch hexact hhas hrule hbody hparts with
            ⟨families, _, hfamilies, hlength⟩
          -- There is a family for each rule that the branch may stand for.
          have hpos : 0 < families.length := by
            rw [hlength]
            split
            · exact List.count_pos_iff.mpr hrule
            · exact Nat.one_pos
          rcases List.exists_mem_of_length_pos hpos with ⟨family, hmem⟩
          rcases (hfamilies family).mp hmem with ⟨hlists, hbelow⟩
          refine ⟨family, children, hlists, ?_, hbelow⟩
          -- A branch has children, so its family is not the empty one.
          have hepsilon : family ≠ .epsilon := by
            rintro rfl
            have hnil : children = [] := hbelow
            have hzero := hparts.length_eq
            rw [hnil] at hzero
            exact hbody (List.eq_nil_of_length_eq_zero hzero.symm)
          simp only [Enumeration.assemble, if_neg hepsilon]
          rfl

omit [DecidableEq T] [DecidableEq N] in
/-- The child of a family that puts smallest trees together has smaller trees
    of its own, and so has a smallest derivation that is smaller than any of a
    node on the path. -/
theorem Least.portion (hsound : f.Sound g input) {id child : NodeId} {label : Label T N}
    {span : Span} {family : Family} {below part : List (Tree N T)} {path : List NodeId}
    (hleast : f.Least g input id (Enumeration.assemble Builder.tree label span family below))
    (hpath : ∀ v ∈ path, ∀ others, f.Shown g input input v others →
      Tree.sizeAll (Enumeration.assemble Builder.tree label span family below) <
        Tree.sizeAll others)
    (hway : f.Way g label span family)
    (hportion : f.Portion g input input family below child part) :
    ∃ least, f.Least g input child least ∧ ∀ v ∈ id :: path, ∀ others,
      f.Shown g input input v others → Tree.sizeAll least < Tree.sizeAll others := by
  have hsmaller := hportion.sizeAll_lt hsound hway
  rcases hportion.shown.exists_least with ⟨least, hchild, hle⟩
  refine ⟨least, hchild, fun v hv others hothers => ?_⟩
  have hbound : Tree.sizeAll (Enumeration.assemble Builder.tree label span family below) ≤
      Tree.sizeAll others := by
    rcases List.mem_cons.mp hv with rfl | hv
    · exact hleast.2 others hothers
    · exact Nat.le_of_lt (hpath v hv others hothers)
  omega

end Forest

namespace Enumeration

variable [DecidableEq T] [DecidableEq N]

/-- Below a node there is a derivation if the nodes on the path have larger
    ones only. -/
theorem nested_ne_nil_of_least (hexact : f.Exact g input) (builder : Builder T N Tok Out)
    {path : List NodeId} {id : NodeId} {label : Label T N} {span : Span}
    (hhas : f.Has id label span) (htokens : span.stop ≤ tokens.length) {trees : List (Tree N T)}
    (hleast : f.Least g input id trees)
    (hpath : ∀ v ∈ path, ∀ others, f.Shown g input input v others →
      Tree.sizeAll trees < Tree.sizeAll others) :
    nested f tokens builder path id ≠ [] := by
  -- By induction along the loops. The family that puts the smallest trees
  -- together has children with derivations below them.
  induction path, id using nested.induct f generalizing label span trees with
  | case1 path id hnode =>
      exact absurd hnode hhas.node?_ne_none
  | case2 path id node hnode t hlabel =>
      rcases hhas.eq (Forest.has_of_node? hnode) with ⟨rfl, rfl⟩
      rw [hlabel] at hhas
      rw [nested_leaf hnode hlabel,
        List.getElem?_eq_getElem (hexact.sound.start_lt hhas htokens)]
      exact List.cons_ne_nil _ _
  | case3 path id node hnode hpath' hlabel =>
      exact absurd (hpath id hpath' trees hleast.1) (Nat.lt_irrefl _)
  | case4 path id node hnode hpath' hlabel ih =>
      rcases hhas.eq (Forest.has_of_node? hnode) with ⟨rfl, rfl⟩
      rcases Forest.exists_family hexact hhas hlabel hleast.1 with
        ⟨family, below, hlists, rfl, hbelow⟩
      have hway := hexact.sound.way hlists
      have hchild : ∀ child part, f.Portion g input input family below child part →
          nested f tokens builder (id :: path) child ≠ [] := by
        intro child part hportion
        rcases hexact.sound.child hway hportion.mem_children with ⟨label', span', hhas', _, hstop⟩
        rcases hleast.portion hexact.sound hpath hway hportion with ⟨least, hleast', hpath''⟩
        exact ih child hhas' (Nat.le_trans hstop htokens) hleast' hpath''
      rw [nested_inner hnode hlabel hpath']
      have hfamily : family ∈ node.families := (Forest.lists_iff_mem hnode).mp hlists
      refine fun hnil => ?_
      have hnone := List.map_eq_nil_iff.mp (List.flatMap_eq_nil_iff.mp hnil family hfamily)
      revert hnone
      cases family with
      | epsilon => exact List.cons_ne_nil _ _
      | unary child => exact hchild child below (.unary hbelow)
      | binary left right =>
          rcases hbelow with ⟨before, behind, rfl, hbefore, hbehind⟩
          rcases List.exists_mem_of_ne_nil _ (hchild left before (.left hbefore hbehind)) with
            ⟨outs, houts⟩
          refine fun hnone => hchild right behind (.right hbefore hbehind) ?_
          exact List.map_eq_nil_iff.mp (List.flatMap_eq_nil_iff.mp hnone outs houts)

/-- There is a derivation below every node of an exact forest, if there are
    tokens for it. -/
theorem nested_ne_nil (hexact : f.Exact g input) (builder : Builder T N Tok Out) {id : NodeId}
    {label : Label T N} {span : Span} (hhas : f.Has id label span)
    (htokens : span.stop ≤ tokens.length) : nested f tokens builder [] id ≠ [] := by
  rcases Forest.exists_shown hexact.sound (Nat.le_refl input.length) hhas with ⟨trees, hshown⟩
  rcases hshown.exists_least with ⟨least, hleast, _⟩
  exact nested_ne_nil_of_least hexact builder hhas htokens hleast
    fun _ hv => absurd hv List.not_mem_nil

end Enumeration

end EarleyForest
