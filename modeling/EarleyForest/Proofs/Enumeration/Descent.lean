import EarleyForest.Proofs.Enumeration.Cycles

/-!
# Going Down a Derivation

Trees that show what a node says have been put together from trees that show
what the children of one of its families say. So a derivation leads from node
to node: a step down goes from a node and its trees to a child and the trees
that the child contributes.

A walk is stopped if it meets a node twice on its way down. A derivation is
free if that happens nowhere in it.

## Main definitions

* `Forest.Portion`: The trees that one child contributes to a family.
* `Forest.Under`: One step down a derivation.
* `Forest.Free`: No step down a derivation meets a node again.

## Theorems

* `Portion.sizeAll_lt`: The trees get smaller on the way down.
* `Free.not_mem`, `Free.under`: What is free stays free on the way down.
* `Clear.free`: Every derivation of a node without cycles is free.
-/

namespace EarleyForest

variable {T N Tok : Type}

theorem Tree.sizeAll_pos {trees : List (Tree N Tok)} (h : trees ≠ []) : 0 < sizeAll trees := by
  cases trees with
  | nil => exact absurd rfl h
  | cons tree rest =>
      rw [sizeAll, size_eq_children]
      omega

namespace Forest

/-- Trees put together from those of a family's children, a child, and those
    of the trees that come from that child. -/
inductive Portion (g : Grammar T N) (input : List T) (tokens : List Tok) (f : Forest T N) :
    Family → List (Tree N Tok) → NodeId → List (Tree N Tok) → Prop where
  | unary {child : NodeId} {trees : List (Tree N Tok)}
      (shown : f.Shown g input tokens child trees) :
      Portion g input tokens f (.unary child) trees child trees
  | left {left right : NodeId} {before behind : List (Tree N Tok)}
      (hbefore : f.Shown g input tokens left before)
      (hbehind : f.Shown g input tokens right behind) :
      Portion g input tokens f (.binary left right) (before ++ behind) left before
  | right {left right : NodeId} {before behind : List (Tree N Tok)}
      (hbefore : f.Shown g input tokens left before)
      (hbehind : f.Shown g input tokens right behind) :
      Portion g input tokens f (.binary left right) (before ++ behind) right behind

/-- The first derivation, a node and its trees, is right below the second: the
    trees of the second are put together by a family to which the first
    contributes. -/
def Under (g : Grammar T N) (input : List T) (tokens : List Tok) (f : Forest T N)
    (below above : NodeId × List (Tree N Tok)) : Prop :=
  ∃ label span family trees, f.Lists above.1 label span family ∧
    above.2 = Enumeration.assemble Builder.tree label span family trees ∧
    f.Portion g input tokens family trees below.1 below.2

/-- On the way down a derivation no node is on a path, and none is met again
    below itself. -/
def Free (g : Grammar T N) (input : List T) (tokens : List Tok) (f : Forest T N)
    (path : List NodeId) (top : NodeId × List (Tree N Tok)) : Prop :=
  ∀ outer, Relation.ReflTransGen (f.Under g input tokens) outer top →
    outer.1 ∉ path ∧ ∀ inner, Relation.TransGen (f.Under g input tokens) inner outer →
      inner.1 ≠ outer.1

variable {g : Grammar T N} {input : List T} {tokens : List Tok} {f : Forest T N}

theorem Portion.shown {family : Family} {trees part : List (Tree N Tok)} {child : NodeId}
    (h : f.Portion g input tokens family trees child part) : f.Shown g input tokens child part := by
  cases h with
  | unary hshown => exact hshown
  | left hbefore hbehind => exact hbefore
  | right hbefore hbehind => exact hbehind

theorem Portion.shownBelow {family : Family} {trees part : List (Tree N Tok)} {child : NodeId}
    (h : f.Portion g input tokens family trees child part) :
    f.ShownBelow g input tokens family trees := by
  cases h with
  | unary hshown => exact hshown
  | left hbefore hbehind => exact ⟨_, _, rfl, hbefore, hbehind⟩
  | right hbefore hbehind => exact ⟨_, _, rfl, hbefore, hbehind⟩

theorem Portion.mem_children {family : Family} {trees part : List (Tree N Tok)} {child : NodeId}
    (h : f.Portion g input tokens family trees child part) : child ∈ family.children := by
  cases h with
  | unary hshown => exact List.mem_singleton_self child
  | left hbefore hbehind => exact List.mem_cons_self
  | right hbefore hbehind => exact List.mem_cons_of_mem _ (List.mem_singleton_self child)

theorem Under.child {below above : NodeId × List (Tree N Tok)}
    (h : f.Under g input tokens below above) : f.Child below.1 above.1 := by
  rcases h with ⟨label, span, family, trees, hlists, _, hportion⟩
  exact child_iff.mpr ⟨label, span, family, hlists, hportion.mem_children⟩

theorem Free.not_mem {path : List NodeId} {top : NodeId × List (Tree N Tok)}
    (h : f.Free g input tokens path top) : top.1 ∉ path := (h top .refl).1

/-- With a node behind the path, what is right below it is free as well. -/
theorem Free.under {path : List NodeId} {below above : NodeId × List (Tree N Tok)}
    (h : f.Free g input tokens path above) (hbelow : f.Under g input tokens below above) :
    f.Free g input tokens (above.1 :: path) below := by
  intro outer houter
  rcases h outer (houter.tail hbelow) with ⟨hpath, hagain⟩
  refine ⟨fun hmem => ?_, hagain⟩
  rcases List.mem_cons.mp hmem with hsame | hmem
  · exact (h above .refl).2 outer (Relation.TransGen.tail' houter hbelow) hsame
  · exact hpath hmem

/-- If a walk below a node meets no node twice, every derivation of the node
    is free. -/
theorem Clear.free {path : List NodeId} {id : NodeId} (h : f.Clear path id)
    (trees : List (Tree N Tok)) : f.Free g input tokens path (id, trees) := by
  intro outer houter
  rcases h outer.1 (houter.lift Prod.fst fun _ _ => Under.child) with ⟨hpath, hcycle⟩
  refine ⟨hpath, fun inner hinner hsame => hcycle ?_⟩
  have hdown : Relation.TransGen f.Child inner.1 outer.1 :=
    hinner.lift Prod.fst fun _ _ => Under.child
  rwa [hsame] at hdown

/-- What a node says is not shown by no trees at all. -/
theorem Shown.ne_nil (hsound : f.Sound g input) {id : NodeId} {trees : List (Tree N Tok)}
    (h : f.Shown g input tokens id trees) : trees ≠ [] := by
  rcases h with ⟨label, span, hhas, hshow⟩
  have hlength := hshow.length_eq
  rintro rfl
  cases label with
  | terminal t => cases hlength
  | nonterminal n => cases hlength
  | intermediate rule dot =>
      rcases hsound.holds hhas with ⟨hdot, ⟨r, hr, hlt⟩, _⟩
      simp only [Grammar.spelled, hr, Option.map_some, Option.getD_some, List.length_nil,
        List.length_take_of_le (Nat.le_of_lt hlt)] at hlength
      omega

/-- The trees of a child are smaller than what they are put together to. -/
theorem Portion.sizeAll_lt (hsound : f.Sound g input) {label : Label T N} {span : Span}
    {family : Family} {trees part : List (Tree N Tok)} {child : NodeId}
    (hway : f.Way g label span family) (h : f.Portion g input tokens family trees child part) :
    Tree.sizeAll part <
      Tree.sizeAll (Enumeration.assemble Builder.tree label span family trees) := by
  -- Putting trees together does not lose any of them.
  have hassemble : family ≠ .epsilon → Tree.sizeAll trees ≤
      Tree.sizeAll (Enumeration.assemble Builder.tree label span family trees) := by
    intro hepsilon
    cases label with
    | terminal t => exact Nat.le_refl _
    | nonterminal n =>
        simp only [Enumeration.assemble, if_neg hepsilon, Builder.tree, Tree.sizeAll, Tree.size]
        omega
    | intermediate rule dot => exact Nat.le_refl _
  cases h with
  | unary hshown =>
      -- One child has a branch made of its trees.
      cases hway with
      | unary hrule hchild =>
          simp only [Enumeration.assemble, reduceCtorEq, if_false, Builder.tree, Tree.sizeAll,
            Tree.size]
          omega
  | left hbefore hbehind =>
      -- Each of two children has trees of its own.
      refine Nat.lt_of_lt_of_le ?_ (hassemble (by simp only [ne_eq, reduceCtorEq,
        not_false_eq_true]))
      have hpos := Tree.sizeAll_pos (hbehind.ne_nil hsound)
      rw [Tree.sizeAll_append]
      omega
  | right hbefore hbehind =>
      refine Nat.lt_of_lt_of_le ?_ (hassemble (by simp only [ne_eq, reduceCtorEq,
        not_false_eq_true]))
      have hpos := Tree.sizeAll_pos (hbefore.ne_nil hsound)
      rw [Tree.sizeAll_append]
      omega

theorem Under.sizeAll_lt (hsound : f.Sound g input) {below above : NodeId × List (Tree N Tok)}
    (h : f.Under g input tokens below above) : Tree.sizeAll below.2 < Tree.sizeAll above.2 := by
  rcases h with ⟨label, span, family, trees, hlists, habove, hportion⟩
  rw [habove]
  exact hportion.sizeAll_lt hsound (hsound.way hlists)

/-- What a child contributes to a match of two symbols or more: one tree for a
    symbol, or all trees but the last for the part of the body before it. -/
theorem Portion.of_binary {rule dot i k j : Nat} {r : Rule T N} {first : Label T N}
    {s : Symbol T N} {left right : NodeId} (hfirst : g.labelAt? rule dot = some first)
    (hr : g.rules[rule]? = some r) (hlt : dot < r.body.length) (hleft : f.Has left first ⟨i, k⟩)
    (hright : f.Has right s.label ⟨k, j⟩) {trees part : List (Tree N Tok)} {child : NodeId}
    (h : f.Portion g input tokens (.binary left right) trees child part) :
    (∃ s' : Symbol T N, ∃ span tree, f.Has child s'.label span ∧ part = [tree] ∧ tree ∈ trees) ∨
      f.Has child (.intermediate rule dot) ⟨i, k⟩ ∧ part = trees.take dot := by
  cases h with
  | right hbefore hbehind =>
      rcases (shown_symbol_iff hright).mp hbehind with ⟨tree, rfl, _⟩
      exact Or.inl ⟨s, _, tree, hright, rfl, List.mem_append_right _ (List.mem_singleton_self tree)⟩
  | @left _ _ before behind hbefore hbehind =>
      by_cases hone : dot = 1
      · -- One symbol has the node of the symbol.
        subst hone
        have hs : r.body[0]? = some r.body[0] := List.getElem?_eq_getElem (by omega)
        rw [Grammar.labelAt?_one hr hs hlt, Option.some.injEq] at hfirst
        subst hfirst
        rcases (shown_symbol_iff hleft).mp hbefore with ⟨tree, rfl, _⟩
        exact Or.inl ⟨_, _, tree, hleft, rfl, List.mem_append_left _ (List.mem_singleton_self tree)⟩
      · have hpos := Grammar.pos_of_labelAt? hfirst
        have hlength := ((shown_prefix_iff hfirst hr hlt hleft).mp hbefore).length_eq
        rw [List.length_take_of_le (Nat.le_of_lt hlt)] at hlength
        rw [Grammar.labelAt?_intermediate hr (by omega) hlt, Option.some.injEq] at hfirst
        subst hfirst
        exact Or.inr ⟨hleft, (List.take_left' hlength).symm⟩

/-- Right below a part of a rule's body is one of its trees, or the part that
    is one symbol shorter. -/
theorem Under.of_intermediate (hsound : f.Sound g input) {below above : NodeId × List (Tree N Tok)}
    (h : f.Under g input tokens below above) {rule dot : Nat} {span : Span}
    (hhas : f.Has above.1 (.intermediate rule dot) span) :
    (∃ s : Symbol T N, ∃ span' tree, f.Has below.1 s.label span' ∧ below.2 = [tree] ∧
        tree ∈ above.2) ∨
      ∃ less stop, less < dot ∧ f.Has below.1 (.intermediate rule less) ⟨span.start, stop⟩ ∧
        below.2 = above.2.take less := by
  rcases h with ⟨label, span', family, trees, hlists, habove, hportion⟩
  rcases hlists.has.eq hhas with ⟨rfl, rfl⟩
  have hsame : above.2 = trees := habove
  rw [hsame]
  -- Only a family of two children has a label that names a rule and a dot.
  cases hsound.way hlists with
  | @binary rule' dot' i k j first _ s left right hfirst hs hlabel hleft hright =>
      rcases Grammar.symbolAt?_eq_some_iff.mp hs with ⟨r, hr, hs'⟩
      have hlt := (List.getElem?_eq_some_iff.mp hs').1
      rcases Grammar.eq_of_labelAt?_intermediate hlabel with ⟨rfl, rfl⟩
      rcases hportion.of_binary hfirst hr hlt hleft hright with
        ⟨s', span', tree, hchild, hpart, hmem⟩ | ⟨hchild, hpart⟩
      · exact Or.inl ⟨s', span', tree, hchild, hpart, hmem⟩
      · exact Or.inr ⟨dot', k, Nat.lt_succ_self _, hchild, hpart⟩

/-- Right below the tree of a nonterminal is one of its children, or the part
    of its rule's body without the last symbol. -/
theorem Under.of_symbol (hsound : f.Sound g input) {below above : NodeId × List (Tree N Tok)}
    (h : f.Under g input tokens below above) {s : Symbol T N} {span : Span}
    (hhas : f.Has above.1 s.label span) :
    ∃ top, above.2 = [top] ∧
      ((∃ s' : Symbol T N, ∃ span' tree, f.Has below.1 s'.label span' ∧ below.2 = [tree] ∧
          tree ∈ top.children) ∨
        ∃ rule dot r stop, f.Has below.1 (.intermediate rule dot) ⟨span.start, stop⟩ ∧
          g.rules[rule]? = some r ∧ top.rule? input = some r ∧ top.span = span ∧
          below.2 = top.children.take dot) := by
  rcases h with ⟨label, span', family, trees, hlists, habove, hportion⟩
  rcases hlists.has.eq hhas with ⟨rfl, rfl⟩
  cases s with
  | terminal t =>
      have hchild := child_iff.mpr ⟨_, _, family, hlists, hportion.mem_children⟩
      exact absurd hchild (hsound.not_child_of_terminal hhas)
  | nonterminal n =>
      have hway := hsound.way hlists
      -- A family that has children makes a branch.
      have hbranch : above.2 = [.branch n span' trees] := by
        rw [habove]
        cases hportion <;> rfl
      refine ⟨_, hbranch, ?_⟩
      generalize hlabel : (Symbol.nonterminal n : Symbol T N).label = label at hway
      cases hway with
      | epsilon hrule => cases hportion
      | unary hrule hchild =>
          cases hportion with
          | unary hshown =>
              rcases (shown_symbol_iff hchild).mp hshown with ⟨tree, heq, _⟩
              have hmem : tree ∈ below.2 := by
                rw [heq]
                exact List.mem_singleton_self tree
              exact Or.inl ⟨_, _, tree, hchild, heq, hmem⟩
      | @binary rule dot i k j first _ s left right hfirst hs hafter hleft hright =>
          rcases Grammar.symbolAt?_eq_some_iff.mp hs with ⟨r, hr, hs'⟩
          have hlt := (List.getElem?_eq_some_iff.mp hs').1
          rcases hportion.of_binary hfirst hr hlt hleft hright with
            ⟨s', span', tree, hchild, hpart, hmem⟩ | ⟨hchild, hpart⟩
          · exact Or.inl ⟨s', span', tree, hchild, hpart, hmem⟩
          · -- The branch is over the whole body of the rule.
            refine Or.inr ⟨rule, dot, r, k, hchild, hr, ?_, rfl, hpart⟩
            have hparts := showAll_of_binary hfirst hr hs' hleft hright hportion.shownBelow
            have hpos := Grammar.pos_of_labelAt? hfirst
            rcases Grammar.eq_of_labelAt?_nonterminal hr (by omega)
              (hafter.trans (congrArg some hlabel.symm)) with ⟨hwhole, rfl⟩
            rw [hwhole, List.take_length] at hparts
            exact hparts.rule?_branch _ _

end Forest

end EarleyForest
