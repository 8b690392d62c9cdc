import EarleyForest.Proofs.Enumeration.Repetition
import EarleyForest.Proofs.Enumeration.Walked

/-!
# Parts of Rules That Are Met Again

A part of a rule's body has a node of its own too, with the number of the rule
in its label. A walk that has it on its path is stopped where the same part
comes up over the same span. So if a rule stands in the grammar only once, the
tree of a walk has no part of a body inside itself over the same span.

The first trees below a branch are the parts of its rule's body, the longer
ones around the shorter ones. They are followed along the way down, apart from
the trees themselves: a part of a body is no tree of its own.

## Main definitions

* `Tree.NewParts`: No part of a rule's body in a tree stands for a node on the
  path, and none occurs inside itself.
* `Forest.NewStem`: The same of the parts that some first trees make up.

## Theorems

* `NewStem.concat`: The parts that one tree more makes up.
* `newParts_of_children`: The parts in a tree and in those right below it.
* `Walked.newParts`: The trees of a walk do not repeat parts of rules.
-/

namespace EarleyForest

variable {T N Tok : Type} {g : Grammar T N} {input : List T} {tokens : List Tok} {f : Forest T N}

/-- No part of a rule's body in a tree stands for a node on the path, and none
    occurs inside itself. -/
structure Tree.NewParts (g : Grammar T N) (input : List T) (f : Forest T N) (path : List NodeId)
    (tree : Tree N Tok) : Prop where
  off {sub : Tree N Tok} {r : Rule T N} {dot : Nat} : Relation.ReflTransGen Tree.Child sub tree →
    sub.rule? input = some r → 2 ≤ dot → dot < r.body.length →
    ∃ v rule, v ∉ path ∧ g.rules[rule]? = some r ∧ f.Has v (.intermediate rule dot) (sub.upTo dot)
  once : ¬ tree.RepeatsPart input

/-- Of the parts of one rule's body that the first of some trees make up, two
    trees or more, none stands for a node on the path, and none occurs inside
    itself. -/
structure Forest.NewStem (g : Grammar T N) (input : List T) (f : Forest T N) (path : List NodeId)
    (rule start : Nat) (trees : List (Tree N Tok)) : Prop where
  off {dot : Nat} : 2 ≤ dot → dot ≤ trees.length → ∃ v, v ∉ path ∧
    f.Has v (.intermediate rule dot) ⟨start, Tree.stopFrom start (trees.take dot)⟩
  once {dot : Nat} {r : Rule T N} {part inner : Tree N Tok} : 2 ≤ dot → dot ≤ trees.length →
    part ∈ trees.take dot → Relation.ReflTransGen Tree.Child inner part →
    g.rules[rule]? = some r → inner.rule? input = some r →
    inner.upTo dot ≠ ⟨start, Tree.stopFrom start (trees.take dot)⟩

theorem Tree.NewParts.of_cons {path : List NodeId} {id : NodeId} {tree : Tree N Tok}
    (h : tree.NewParts g input f (id :: path)) : tree.NewParts g input f path where
  off hsub hrule htwo hlt :=
    have ⟨v, rule, hv, hr, hhas⟩ := h.off hsub hrule htwo hlt
    ⟨v, rule, fun hmem => hv (List.mem_cons_of_mem _ hmem), hr, hhas⟩
  once := h.once

/-- Fewer than two trees make up no part of a body that has a node of its
    own. -/
theorem Forest.newStem_of_length_lt {path : List NodeId} {rule start : Nat}
    {trees : List (Tree N Tok)} (h : trees.length < 2) :
    f.NewStem g input path rule start trees where
  off htwo hle := by omega
  once htwo hle := by omega

/-- With one tree more there is one part more, whose node is next on the way
    down. -/
theorem Forest.NewStem.concat (hsound : f.Sound g input) (hrules : g.rules.Nodup)
    {path : List NodeId} {id : NodeId} {rule i j : Nat} {before : List (Tree N Tok)}
    {last : Tree N Tok} (hpath : id ∉ path)
    (hhas : f.Has id (.intermediate rule (before.length + 1)) ⟨i, j⟩)
    (hstop : Tree.stopFrom i (before ++ [last]) = j)
    (hstem : f.NewStem g input (id :: path) rule i before)
    (hnew : ∀ tree ∈ before ++ [last], tree.NewParts g input f (id :: path)) :
    f.NewStem g input path rule i (before ++ [last]) where
  off {dot} htwo hle := by
    have hlength : (before ++ [last]).length = before.length + 1 := List.length_append
    rw [hlength] at hle
    rcases Nat.lt_or_eq_of_le hle with hlt | rfl
    · rcases hstem.off htwo (Nat.le_of_lt_succ hlt) with ⟨v, hv, hhas'⟩
      rw [List.take_append_of_le_length (Nat.le_of_lt_succ hlt)]
      exact ⟨v, fun hmem => hv (List.mem_cons_of_mem _ hmem), hhas'⟩
    · rw [List.take_of_length_le (Nat.le_of_eq hlength), hstop]
      exact ⟨id, hpath, hhas⟩
  once {dot r part inner} htwo hle hpart hinner hr hrule hsame := by
    have hlength : (before ++ [last]).length = before.length + 1 := List.length_append
    rw [hlength] at hle
    rcases Nat.lt_or_eq_of_le hle with hlt | rfl
    · rw [List.take_append_of_le_length (Nat.le_of_lt_succ hlt)] at hpart hsame
      exact hstem.once htwo (Nat.le_of_lt_succ hlt) hpart hinner hr hrule hsame
    · rw [List.take_of_length_le (Nat.le_of_eq hlength)] at hpart hsame
      rw [hstop] at hsame
      -- The rule of the inner part is numbered as this one, so both have the
      -- node that is on the path there.
      rcases hsound.holds hhas with ⟨_, ⟨r', hr', hlt⟩, _⟩
      rw [hr, Option.some.injEq] at hr'
      subst hr'
      rcases (hnew part hpart).off hinner hrule htwo hlt with ⟨v, rule', hv, hr', hhas'⟩
      have hnumber : rule = rule' :=
        (List.getElem?_inj (List.getElem?_eq_some_iff.mp hr).1 hrules).mp (hr.trans hr'.symm)
      rw [← hnumber, hsame] at hhas'
      exact hv (hsound.unique hhas hhas' ▸ List.mem_cons_self)

/-- The parts of the rule that a tree stands for are made up by its first
    children. If none of them is met again, and the parts in the trees right
    below are new, then so are those in the tree. -/
theorem Tree.newParts_of_children {path : List NodeId} {id : NodeId} {tree : Tree N Tok}
    (hbelow : ∀ child ∈ tree.children, child.NewParts g input f (id :: path))
    (hstem : ∀ r, tree.rule? input = some r → 3 ≤ r.body.length →
      ∃ rule before last, g.rules[rule]? = some r ∧ tree.children = before ++ [last] ∧
        before.length + 1 = r.body.length ∧
        f.NewStem g input (id :: path) rule tree.span.start before) :
    tree.NewParts g input f path where
  off {sub r dot} hsub hrule htwo hlt := by
    rcases Relation.ReflTransGen.cases_tail hsub with rfl | ⟨child, hsub, hchild⟩
    · rcases hstem r hrule (by omega) with ⟨rule, before, last, hr, hchildren, hlength, hstem⟩
      rcases hstem.off htwo (by omega) with ⟨v, hv, hhas⟩
      refine ⟨v, rule, fun hmem => hv (List.mem_cons_of_mem _ hmem), hr, ?_⟩
      rwa [upTo, hchildren, List.take_append_of_le_length (by omega)]
    · exact (hbelow child hchild).of_cons.off hsub hrule htwo hlt
  once := by
    rintro ⟨outer, inner, r, dot, houter, ⟨part, hpart, hinner⟩, htwo, hlt, hrule, hrule', hsame⟩
    rcases Relation.ReflTransGen.cases_tail houter with rfl | ⟨child, houter, hchild⟩
    · rcases hstem r hrule (by omega) with ⟨rule, before, last, hr, hchildren, hlength, hstem⟩
      rw [hchildren, List.take_append_of_le_length (by omega)] at hpart
      refine hstem.once htwo (by omega) hpart hinner hr hrule' ?_
      rw [hsame, upTo, hchildren, List.take_append_of_le_length (by omega)]
    · exact (hbelow child hchild).once
        ⟨outer, inner, r, dot, houter, ⟨part, hpart, hinner⟩, htwo, hlt, hrule, hrule', hsame⟩

/-- A tree with fewer than three children stands for no rule of which a part
    has a node of its own. -/
theorem Tree.newParts_of_short {path : List NodeId} (id : NodeId) {tree : Tree N Tok}
    (hshort : tree.children.length < 3)
    (hbelow : ∀ child ∈ tree.children, child.NewParts g input f (id :: path)) :
    tree.NewParts g input f path := by
  refine newParts_of_children hbelow fun r hrule hlong => ?_
  cases tree with
  | leaf token span => cases hrule
  | covert label position => cases hrule
  | branch label span children =>
      cases hrule
      have hle := List.length_filterMap_le (symbol? input) children
      simp only [Tree.children] at hshort
      simp only at hlong
      omega

/-- The parts that all trees but the last make up, as far as they have nodes
    of their own. -/
theorem Forest.newStem_of_labelAt? {path : List NodeId} {left : NodeId} {rule dot i k : Nat}
    {r : Rule T N} {first : Label T N} {before : List (Tree N Tok)}
    (hr : g.rules[rule]? = some r) (hlt : dot < r.body.length) (hlength : before.length = dot)
    (hfirst : g.labelAt? rule dot = some first) (hleft : f.Has left first ⟨i, k⟩)
    (h : ∀ rule dot span, f.Has left (.intermediate rule dot) span →
      f.NewStem g input path rule span.start before) : f.NewStem g input path rule i before := by
  by_cases htwo : 2 ≤ dot
  · rw [Grammar.labelAt?_intermediate hr htwo hlt, Option.some.injEq] at hfirst
    rw [← hfirst] at hleft
    exact h rule dot _ hleft
  · exact newStem_of_length_lt (by omega)

/-- If no rule stands in the grammar twice, the parts in the trees of a walk
    are new, and below a part of a body so are those that the trees make up. -/
theorem Forest.Walked.newParts (hsound : f.Sound g input) (hrules : g.rules.Nodup)
    {path : List NodeId} {id : NodeId} {trees : List (Tree N Tok)}
    (h : f.Walked g input tokens path id trees) :
    (∀ tree ∈ trees, tree.NewParts g input f path) ∧
      ∀ rule dot span, f.Has id (.intermediate rule dot) span →
        f.NewStem g input path rule span.start trees := by
  induction h with
  | @leaf path id t token span hhas =>
      refine ⟨List.forall_mem_singleton.mpr ?_,
        fun rule dot span' hpart => by cases (hhas.eq hpart).1⟩
      exact Tree.newParts_of_short id (Nat.succ_pos 2) fun _ h => absurd h List.not_mem_nil
  | @covert path id n i hpath hhas =>
      refine ⟨List.forall_mem_singleton.mpr ?_,
        fun rule dot span' hpart => by cases (hhas.eq hpart).1⟩
      exact Tree.newParts_of_short id (Nat.succ_pos 2) fun _ h => absurd h List.not_mem_nil
  | @single path id child n span only hpath hhas _ ih =>
      refine ⟨List.forall_mem_singleton.mpr ?_,
        fun rule dot span' hpart => by cases (hhas.eq hpart).1⟩
      exact Tree.newParts_of_short id (Nat.le_succ 2) ih.1
  | @whole path id left right rule dot i k j r first before last hpath hhas hr hdot hfirst hleft
      hparts _ _ ihBefore ihLast =>
      refine ⟨List.forall_mem_singleton.mpr ?_,
        fun rule dot span' hpart => by cases (hhas.eq hpart).1⟩
      have hlength := hparts.length_eq
      rw [List.length_append, List.length_singleton] at hlength
      have hstem := newStem_of_labelAt? hr (by omega) (by omega) hfirst hleft ihBefore.2
      have hnew := List.forall_mem_append.mpr ⟨ihBefore.1, ihLast.1⟩
      refine Tree.newParts_of_children hnew fun r' hrule _ => ?_
      rw [hparts.rule?_branch, Option.some.injEq] at hrule
      subst hrule
      exact ⟨rule, before, last, hr, rfl, hlength, hstem⟩
  | @part path id left right rule dot i k j r first before last hpath hhas hr hdot hfirst hleft
      hparts _ _ ihBefore ihLast =>
      have hnew := List.forall_mem_append.mpr ⟨ihBefore.1, ihLast.1⟩
      refine ⟨fun tree htree => (hnew tree htree).of_cons, fun rule' dot' span hpart => ?_⟩
      rcases hhas.eq hpart with ⟨hlabel, rfl⟩
      rw [Label.intermediate.injEq] at hlabel
      rcases hlabel with ⟨rfl, rfl⟩
      have hlength := hparts.length_eq
      rw [List.length_append, List.length_singleton, List.length_take_of_le (by omega)] at hlength
      have hstem := newStem_of_labelAt? hr (by omega) (by omega) hfirst hleft ihBefore.2
      rw [← Nat.succ.inj hlength] at hhas
      exact hstem.concat hsound hrules hpath hhas hparts.stopFrom_eq hnew

end EarleyForest
