import Mathlib.Algebra.BigOperators.Group.Finset.Basic
import Mathlib.Algebra.Ring.Nat
import Mathlib.Data.List.Count
import EarleyForest.Proofs.Enumeration.Descent
import EarleyForest.Proofs.Enumeration.Families

/-!
# How Often a Tree Occurs

Below a node of an exact forest, every tree that shows what the node says
occurs among the derivations if nothing on the way down it is met twice, and
it occurs as often as its multiplicity says.

Each family to which the tree belongs contributes the occurrences of what is
below it, and those are as many as the multiplicities of the children make.
No other family contributes anything.

## Theorems

* `count_append_of_length_one`: The occurrences of a list in a product of two.
* `sum_map_eq_length_mul`: A sum over some equal terms and zeros.
* `sum_count_families`: The occurrences below all families of a node.
* `count_nested`: How often trees occur below a node.
-/

namespace EarleyForest

/-- In the product of two lists of lists, the second of which has lists of one
    element only, an element at the end tells the two factors apart. -/
theorem count_append_of_length_one {α : Type} [DecidableEq α] (firsts seconds : List (List α))
    (hone : ∀ b ∈ seconds, b.length = 1) (before : List α) (last : α) :
    (firsts.flatMap fun a => seconds.map (a ++ ·)).count (before ++ [last]) =
      firsts.count before * seconds.count [last] := by
  -- By induction on the first factor. A list of the product is counted for the
  -- one element of it that is its front.
  induction firsts with
  | nil => simp only [List.flatMap_nil, List.count_nil, Nat.zero_mul]
  | cons a rest ih =>
      rw [List.flatMap_cons, List.count_append, ih]
      by_cases ha : a = before
      · subst ha
        rw [List.count_map_of_injective _ _ fun b b' h => List.append_cancel_left h,
          List.count_cons_self, Nat.add_mul, Nat.one_mul, Nat.add_comm]
      · -- An equal list would have an equal first factor.
        have hnone : before ++ [last] ∉ seconds.map (a ++ ·) := by
          intro h
          rcases List.mem_map.mp h with ⟨b, hb, heq⟩
          exact ha (List.append_inj_left' heq (hone b hb))
        rw [List.count_eq_zero_of_not_mem hnone, List.count_cons_of_ne ha, Nat.zero_add]

/-- A sum whose terms are all zero but for some that are equal. -/
theorem sum_map_eq_length_mul {α : Type} [DecidableEq α] {l part : List α} {value : α → Nat}
    {w : Nat} (hl : l.Nodup) (hpart : part.Nodup) (hsub : ∀ a ∈ part, a ∈ l)
    (hin : ∀ a ∈ part, value a = w) (hout : ∀ a ∈ l, a ∉ part → value a = 0) :
    (l.map value).sum = part.length * w := by
  -- The terms that are zero can be left out.
  have hsum : ∑ a ∈ part.toFinset, value a = ∑ a ∈ l.toFinset, value a := by
    refine Finset.sum_subset (fun a ha => ?_) fun a ha hnot => ?_
    · exact List.mem_toFinset.mpr (hsub a (List.mem_toFinset.mp ha))
    · exact hout a (List.mem_toFinset.mp ha) fun h => hnot (List.mem_toFinset.mpr h)
  rw [← List.sum_toFinset value hl, ← hsum, List.sum_toFinset value hpart,
    List.map_congr_left hin, List.map_const', List.sum_replicate_nat]

variable {T N Tok : Type} {g : Grammar T N} {input : List T} {tokens : List Tok} {f : Forest T N}

namespace Enumeration

/-- What is found below a family shows what its children say. -/
theorem shownBelow_of_mem (hsound : f.Sound g input) {path : List NodeId} {family : Family}
    {trees : List (Tree N Tok)} (h : trees ∈ nestedBelow f tokens Builder.tree path family) :
    f.ShownBelow g input tokens family trees := by
  cases family with
  | epsilon => exact List.mem_singleton.mp h
  | unary child => exact shown_of_mem_nested hsound h
  | binary left right =>
      rcases mem_nestedBelow_binary.mp h with ⟨before, behind, rfl, hbefore, hbehind⟩
      exact ⟨before, behind, rfl, shown_of_mem_nested hsound hbefore,
        shown_of_mem_nested hsound hbehind⟩

/-- What is below a part of a rule's body is left as it is. -/
theorem map_assemble_intermediate {Out : Type} (builder : Builder T N Tok Out) (rule dot : Nat)
    (span : Span) (family : Family) (below : List (List Out)) :
    below.map (assemble builder (.intermediate rule dot) span family) = below :=
  List.map_id below

variable [DecidableEq N] [DecidableEq Tok]

/-- The occurrences below a node, counted family by family. -/
theorem count_inner {path : List NodeId} {id : NodeId} {node : Node T N}
    (hnode : f.node? id = some node) (hlabel : ∀ t, node.label ≠ .terminal t) (hpath : id ∉ path)
    (top : List (Tree N Tok)) : (nested f tokens Builder.tree path id).count top =
      (node.families.map fun family => ((nestedBelow f tokens Builder.tree (id :: path) family).map
        (assemble Builder.tree node.label node.span family)).count top).sum := by
  rw [nested_inner hnode hlabel hpath, List.count_flatMap]
  rfl

/-- A branch occurs as often as its children do below the same family. -/
theorem count_map_assemble_branch (path : List NodeId) (n : N) (span : Span) (family : Family)
    {below : List (Tree N Tok)} (hbelow : below ≠ []) :
    ((nestedBelow f tokens Builder.tree path family).map
        (assemble Builder.tree (.nonterminal n : Label T N) span family)).count
          [.branch n span below] =
      (nestedBelow f tokens Builder.tree path family).count below := by
  by_cases hepsilon : family = .epsilon
  · -- The empty family makes no branch, and has nothing below it.
    subst hepsilon
    have hnot : below ∉ nestedBelow f tokens Builder.tree path .epsilon :=
      fun h => hbelow (List.mem_singleton.mp h)
    have hnot' : [.branch n span below] ∉ (nestedBelow f tokens Builder.tree path .epsilon).map
        (assemble Builder.tree (.nonterminal n : Label T N) span .epsilon) := by
      intro h
      have hcovert := List.mem_singleton.mp h
      simp only [assemble, if_true, List.singleton_inj, Builder.tree, reduceCtorEq] at hcovert
    rw [List.count_eq_zero_of_not_mem hnot, List.count_eq_zero_of_not_mem hnot']
  · have hbranch : assemble Builder.tree (.nonterminal n : Label T N) span family =
        fun below : List (Tree N Tok) => [.branch n span below] := by
      funext below
      simp only [assemble, if_neg hepsilon]
      rfl
    -- A branch tells what is below it.
    have hinjective : Function.Injective
        fun below : List (Tree N Tok) => [Tree.branch n span below] := by
      intro b b' h
      simp only [List.singleton_inj, Tree.branch.injEq, true_and] at h
      exact h
    rw [hbranch]
    exact List.count_map_of_injective _ _ hinjective below

variable [DecidableEq T]

/-- If trees for the children of a family occur as often as their
    multiplicity says, so do trees for all of them side by side. -/
theorem count_nestedBelow (hsound : f.Sound g input) {path : List NodeId} {label : Label T N}
    {span : Span} {family : Family} (hway : f.Way g label span family) {trees : List (Tree N Tok)}
    (hparts : ∀ child part, f.Portion g input tokens family trees child part →
      (nested f tokens Builder.tree path child).count part = Tree.multiplicityAll g input part)
    (hshown : f.ShownBelow g input tokens family trees) :
    (nestedBelow f tokens Builder.tree path family).count trees =
      Tree.multiplicityAll g input trees := by
  cases hway with
  | epsilon hrule =>
      have hnil : trees = [] := hshown
      subst hnil
      exact List.count_singleton_self
  | @unary n s span child hrule hchild =>
      exact hparts child trees (.unary hshown)
  | @binary rule dot i k j first label s left right hfirst hs hlabel hleft hright =>
      rcases hshown with ⟨before, behind, rfl, hbefore, hbehind⟩
      -- The right child is a symbol's, so each of its derivations makes one
      -- tree.
      have hone : ∀ b ∈ nested f tokens Builder.tree path right, b.length = 1 := by
        intro b hb
        rcases (Forest.shown_symbol_iff hright).mp (shown_of_mem_nested hsound hb) with
          ⟨tree, rfl, _⟩
        rfl
      rcases id ((Forest.shown_symbol_iff hright).mp hbehind) with ⟨last, rfl, _⟩
      rw [nestedBelow, count_append_of_length_one _ _ hone, Tree.multiplicityAll_append,
        hparts left before (.left hbefore hbehind), hparts right _ (.right hbefore hbehind)]

/-- The occurrences below all families of a node, if there are some families
    below whose children the trees belong and trees occur below the children
    as often as their multiplicity says. -/
theorem sum_count_families (hsound : f.Sound g input) {path : List NodeId} {id : NodeId}
    {node : Node T N} (hnode : f.node? id = some node) {below : List (Tree N Tok)}
    (hparts : ∀ family, f.Lists id node.label node.span family → ∀ child part,
      f.Portion g input tokens family below child part →
      (nested f tokens Builder.tree path child).count part = Tree.multiplicityAll g input part)
    {part : List Family} (hnodup : part.Nodup)
    (hpart : ∀ family, family ∈ part ↔
      f.Lists id node.label node.span family ∧ f.ShownBelow g input tokens family below) :
    (node.families.map fun family =>
        (nestedBelow f tokens Builder.tree path family).count below).sum =
      part.length * Tree.multiplicityAll g input below := by
  -- The families of the node are those that it lists.
  have hlists : ∀ family, f.Lists id node.label node.span family ↔ family ∈ node.families :=
    fun _ => Forest.lists_iff_mem hnode
  refine sum_map_eq_length_mul (hsound.nodup hnode) hnodup (fun family h => ?_) (fun family h => ?_)
    fun family hfamily hnot => ?_
  · exact (hlists family).mp ((hpart family).mp h).1
  · rcases (hpart family).mp h with ⟨hfamily, hshown⟩
    exact count_nestedBelow hsound (hsound.way hfamily) (hparts family hfamily) hshown
  · refine List.count_eq_zero_of_not_mem fun h => hnot ((hpart family).mpr ⟨?_, ?_⟩)
    · exact (hlists family).mpr hfamily
    · exact shownBelow_of_mem hsound h

omit [DecidableEq T] in
/-- A covert occurs once below a nonterminal with an empty rule. -/
theorem sum_count_covert (hexact : f.Exact g input) {path : List NodeId} {id : NodeId} {n : N}
    {i : Nat} {families : List Family}
    (hnode : f.node? id = some ⟨.nonterminal n, ⟨i, i⟩, families⟩)
    (hrule : Rule.epsilon n ∈ g.rules) :
    (families.map fun family => ((nestedBelow f tokens Builder.tree path family).map
      (assemble Builder.tree (.nonterminal n : Label T N) ⟨i, i⟩ family)).count
        [.covert n i]).sum = 1 := by
  -- The family for the empty rule is among those of the node.
  have hepsilon : Family.epsilon ∈ families :=
    (Forest.lists_iff_mem hnode).mp (hexact.lists ⟨families, hnode⟩ (.epsilon hrule))
  change _ = [Family.epsilon].length * 1
  refine sum_map_eq_length_mul (hexact.sound.nodup hnode)
    (List.nodup_singleton Family.epsilon) ?_ ?_ ?_
  · intro family hfamily
    rwa [List.mem_singleton.mp hfamily]
  · intro family hfamily
    rw [List.mem_singleton.mp hfamily]
    exact List.count_singleton_self
  · -- Every other family makes a branch.
    intro family _ hnot
    rw [List.mem_singleton] at hnot
    refine List.count_eq_zero_of_not_mem fun h => ?_
    rcases List.mem_map.mp h with ⟨below, _, hbelow⟩
    simp only [assemble, if_neg hnot, Builder.tree, List.singleton_inj, reduceCtorEq] at hbelow

/-- A branch occurs below its nonterminal once for each rule that it can be
    made with and each occurrence of its children. -/
theorem sum_count_branch (hexact : f.Exact g input) {path : List NodeId} {id : NodeId} {i j : Nat}
    {families : List Family} {r : Rule T N} {children : List (Tree N Tok)}
    (hnode : f.node? id = some ⟨.nonterminal r.head, ⟨i, j⟩, families⟩) (hrule : r ∈ g.rules)
    (hbody : r.body ≠ []) (hbranch : Tree.ShowAll g input tokens children r.body i j)
    (hparts : ∀ family, f.Lists id (.nonterminal r.head) ⟨i, j⟩ family → ∀ child part,
      f.Portion g input tokens family children child part →
      (nested f tokens Builder.tree path child).count part = Tree.multiplicityAll g input part) :
    (families.map fun family => ((nestedBelow f tokens Builder.tree path family).map
      (assemble Builder.tree (.nonterminal r.head : Label T N) ⟨i, j⟩ family)).count
        [.branch r.head ⟨i, j⟩ children]).sum =
      Tree.multiplicity g input (.branch r.head ⟨i, j⟩ children) := by
  have hhas : f.Has id (Symbol.nonterminal r.head : Symbol T N).label ⟨i, j⟩ := ⟨families, hnode⟩
  -- A branch has children, so it is no covert.
  have hne : children ≠ [] := by
    intro hnil
    have hlength := hbranch.length_eq
    rw [hnil, List.length_nil] at hlength
    exact hbody (List.eq_nil_of_length_eq_zero hlength.symm)
  rcases Forest.families_of_branch hexact hhas hrule hbody hbranch with
    ⟨part, hnodup, hpart, hlength⟩
  simp only [count_map_assemble_branch _ _ _ _ hne]
  rw [sum_count_families hexact.sound hnode hparts hnodup hpart, hlength,
    Tree.multiplicity_branch _ _ hbranch]

/-- Below a node of an exact forest, trees that show what the node says occur
    as often as their multiplicity says, if the way down is free. -/
theorem count_nested (hexact : f.Exact g input) {path : List NodeId} {id : NodeId}
    {trees : List (Tree N Tok)} (hfree : f.Free g input tokens path (id, trees))
    (hshown : f.Shown g input tokens id trees) :
    (nested f tokens Builder.tree path id).count trees = Tree.multiplicityAll g input trees := by
  -- By induction along the loops. What is right below the node is free, with
  -- the node behind the path.
  induction path, id using nested.induct f generalizing trees with
  | case1 path id hnode =>
      rcases hshown with ⟨_, _, hhas, _⟩
      exact absurd hnode hhas.node?_ne_none
  | case2 path id node hnode t hlabel =>
      rcases node with ⟨label, ⟨i, j⟩, families⟩
      simp only at hlabel
      subst hlabel
      have hhas : f.Has id (Symbol.terminal t : Symbol T N).label ⟨i, j⟩ := ⟨families, hnode⟩
      rcases (Forest.shown_symbol_iff hhas).mp hshown with ⟨tree, rfl, hshows⟩
      cases hshows with
      | leaf here carried =>
          rw [nested_leaf hnode rfl, carried]
          exact List.count_singleton_self
  | case3 path id node hnode hpath hlabel => exact absurd hpath hfree.not_mem
  | case4 path id node hnode hpath hlabel ih =>
      have hparts : ∀ family below, f.Lists id node.label node.span family → ∀ child part,
          trees = assemble Builder.tree node.label node.span family below →
          f.Portion g input tokens family below child part →
          (nested f tokens Builder.tree (id :: path) child).count part =
            Tree.multiplicityAll g input part :=
        fun family below hlists child part htrees hportion =>
          ih child (hfree.under ⟨_, _, family, below, hlists, htrees, hportion⟩) hportion.shown
      rw [count_inner hnode hlabel hpath]
      rcases node with ⟨label, ⟨i, j⟩, families⟩
      cases label with
      | terminal t => exact absurd rfl (hlabel t)
      | nonterminal n =>
          have hhas : f.Has id (Symbol.nonterminal n : Symbol T N).label ⟨i, j⟩ := ⟨families, hnode⟩
          rcases (Forest.shown_symbol_iff hhas).mp hshown with ⟨tree, rfl, hshows⟩
          rw [Tree.multiplicityAll_singleton]
          cases hshows with
          | covert _ hrule => exact sum_count_covert hexact hnode hrule
          | @branch r children _ _ hrule hbody hbranch =>
              refine sum_count_branch hexact hnode hrule hbody hbranch
                fun family hlists child part hportion => ?_
              refine hparts family children hlists child part ?_ hportion
              cases hportion <;> rfl
      | intermediate rule dot =>
          rcases Forest.families_of_intermediate hexact ⟨families, hnode⟩ hshown with ⟨only, honly⟩
          have honly' : ∀ family, family ∈ [only] ↔
              f.Lists id (.intermediate rule dot) ⟨i, j⟩ family ∧
              f.ShownBelow g input tokens family trees := by
            intro family
            rw [List.mem_singleton]
            exact honly family
          simp only [map_assemble_intermediate]
          rw [sum_count_families hexact.sound hnode (fun family hlists child part hportion =>
              hparts family trees hlists child part rfl hportion)
            (List.nodup_singleton only) honly', List.length_singleton, Nat.one_mul]

end Enumeration

end EarleyForest
