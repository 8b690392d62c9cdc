import EarleyForest.Proofs.Enumeration.Cycles
import EarleyForest.Proofs.Enumeration.Survey

/-!
# The Trees That Walks Make

How the trees below a node were made, node by node: which family a walk took,
and that the node was not on the path above it. This says more than that the
trees show what the node says. A tree may show it in a way that no walk takes,
because the nodes on the way down come up again.

A nonterminal over a span has one node. So if a walk made a tree, then no
nonterminal occurs inside itself over the same span: its node would be on the
path when it came up for the second time.

## Main definitions

* `Forest.Walked`: A walk below a node makes these trees.
* `Tree.New`: Nothing in a tree stands for a node on the path, and nothing in
  it repeats itself.

## Theorems

* `walked_of_mem_nested`: What nested loops list has been made by walks.
* `Walked.new`: The trees of a walk do not repeat themselves.
-/

namespace EarleyForest

variable {T N Tok : Type}

/-- A walk below a node makes these trees, if the nodes on the path are above
    it. -/
inductive Forest.Walked (g : Grammar T N) (input : List T) (tokens : List Tok) (f : Forest T N) :
    List NodeId → NodeId → List (Tree N Tok) → Prop where
  | leaf {path : List NodeId} {id : NodeId} {t : T} {token : Tok} {span : Span}
      (hhas : f.Has id (.terminal t) span) : Walked g input tokens f path id [.leaf token span]
  | covert {path : List NodeId} {id : NodeId} {n : N} {i : Nat} (hpath : id ∉ path)
      (hhas : f.Has id (.nonterminal n) ⟨i, i⟩) : Walked g input tokens f path id [.covert n i]
  | single {path : List NodeId} {id child : NodeId} {n : N} {span : Span} {only : Tree N Tok}
      (hpath : id ∉ path) (hhas : f.Has id (.nonterminal n) span)
      (below : Walked g input tokens f (id :: path) child [only]) :
      Walked g input tokens f path id [.branch n span [only]]
  /-- All symbols of a rule, the last one on the right. -/
  | whole {path : List NodeId} {id left right : NodeId} {rule dot i k j : Nat} {r : Rule T N}
      {first : Label T N} {before : List (Tree N Tok)} {last : Tree N Tok} (hpath : id ∉ path)
      (hhas : f.Has id (.nonterminal r.head) ⟨i, j⟩) (hr : g.rules[rule]? = some r)
      (hdot : dot + 1 = r.body.length) (hfirst : g.labelAt? rule dot = some first)
      (hleft : f.Has left first ⟨i, k⟩)
      (hparts : Tree.ShowAll g input tokens (before ++ [last]) r.body i j)
      (hbefore : Walked g input tokens f (id :: path) left before)
      (hlast : Walked g input tokens f (id :: path) right [last]) :
      Walked g input tokens f path id [.branch r.head ⟨i, j⟩ (before ++ [last])]
  /-- Some symbols of a rule, the last of them on the right. -/
  | part {path : List NodeId} {id left right : NodeId} {rule dot i k j : Nat} {r : Rule T N}
      {first : Label T N} {before : List (Tree N Tok)} {last : Tree N Tok} (hpath : id ∉ path)
      (hhas : f.Has id (.intermediate rule (dot + 1)) ⟨i, j⟩) (hr : g.rules[rule]? = some r)
      (hdot : dot + 1 < r.body.length) (hfirst : g.labelAt? rule dot = some first)
      (hleft : f.Has left first ⟨i, k⟩)
      (hparts : Tree.ShowAll g input tokens (before ++ [last]) (r.body.take (dot + 1)) i j)
      (hbefore : Walked g input tokens f (id :: path) left before)
      (hlast : Walked g input tokens f (id :: path) right [last]) :
      Walked g input tokens f path id (before ++ [last])

variable {g : Grammar T N} {input : List T} {tokens : List Tok} {f : Forest T N}

namespace Enumeration

/-- What nested loops list below a node of a sound forest has been made by
    walks. -/
theorem walked_of_mem_nested (hsound : f.Sound g input) {path : List NodeId} {id : NodeId}
    {trees : List (Tree N Tok)} (h : trees ∈ nested f tokens Builder.tree path id) :
    f.Walked g input tokens path id trees := by
  induction path, id using nested.induct f generalizing trees with
  | case1 path id hnode =>
      rw [nested_missing hnode] at h
      exact absurd h List.not_mem_nil
  | case2 path id node hnode t hlabel =>
      rw [nested_leaf hnode hlabel] at h
      rcases List.mem_map.mp h with ⟨token, _, rfl⟩
      have hhas := Forest.has_of_node? hnode
      rw [hlabel] at hhas
      exact .leaf hhas
  | case3 path id node hnode hpath hlabel =>
      rw [nested_cycle hnode hlabel hpath] at h
      exact absurd h List.not_mem_nil
  | case4 path id node hnode hpath hlabel ih =>
      rcases exists_family_of_mem_nested hnode hlabel hpath h with
        ⟨family, hfamily, below, hbelow, rfl⟩
      have hway := hsound.way ⟨node.families, hnode, hfamily⟩
      have hhas := Forest.has_of_node? hnode
      rcases node with ⟨label, span, families⟩
      simp only at hway hhas ⊢
      cases hway with
      | @epsilon n i hrule => exact .covert hpath hhas
      | @unary n s _ child hrule hchild =>
          rcases (Forest.shown_symbol_iff hchild).mp (shown_of_mem_nested hsound hbelow) with
            ⟨only, rfl, _⟩
          exact .single hpath hhas (ih child hbelow)
      | @binary rule dot i k j first _ s left right hfirst hs hafter hleft hright =>
          rcases mem_nestedBelow_binary.mp hbelow with ⟨before, behind, rfl, hbefore, hbehind⟩
          have hshown := shown_of_mem_nested hsound hbehind
          rcases (Forest.shown_symbol_iff hright).mp hshown with ⟨last, rfl, _⟩
          rcases Grammar.symbolAt?_eq_some_iff.mp hs with ⟨r, hr, hs'⟩
          have hlt := (List.getElem?_eq_some_iff.mp hs').1
          have hparts := Forest.showAll_of_binary hfirst hr hs' hleft hright
            ⟨before, [last], rfl, shown_of_mem_nested hsound hbefore, hshown⟩
          have hpos := Grammar.pos_of_labelAt? hfirst
          rw [Grammar.labelAt?_succ hr hs', if_neg (by omega), Option.some.injEq] at hafter
          -- The label tells whether the last symbol of the rule is among them.
          by_cases hwhole : dot + 1 = r.body.length
          · rw [if_pos hwhole] at hafter
            subst hafter
            rw [hwhole, List.take_length] at hparts
            exact .whole hpath hhas hr hwhole hfirst hleft hparts (ih left hbefore)
              (ih right hbehind)
          · rw [if_neg hwhole] at hafter
            subst hafter
            exact .part hpath hhas hr (by omega) hfirst hleft hparts (ih left hbefore)
              (ih right hbehind)

end Enumeration

/-- No nonterminal in a tree stands for a node on the path, and none occurs
    inside itself. -/
structure Tree.New (f : Forest T N) (path : List NodeId) (tree : Tree N Tok) : Prop where
  off {sub : Tree N Tok} {n : N} : Relation.ReflTransGen Tree.Child sub tree →
    sub.label? = some n → ∃ v, v ∉ path ∧ f.Has v (.nonterminal n) sub.span
  once : ¬ tree.Repeats

theorem Tree.New.of_cons {path : List NodeId} {id : NodeId} {tree : Tree N Tok}
    (h : tree.New f (id :: path)) : tree.New f path where
  off hsub hlabel :=
    have ⟨v, hv, hhas⟩ := h.off hsub hlabel
    ⟨v, fun hmem => hv (List.mem_cons_of_mem _ hmem), hhas⟩
  once := h.once

/-- The tree of a nonterminal is new if its node is, and if the trees below are
    new behind that node. -/
theorem Forest.Sound.new (hsound : f.Sound g input) {path : List NodeId} {id : NodeId} {n : N}
    {tree : Tree N Tok} (hpath : id ∉ path) (hhas : f.Has id (.nonterminal n) tree.span)
    (hlabel : tree.label? = some n) (hbelow : ∀ child ∈ tree.children, child.New f (id :: path)) :
    tree.New f path where
  off {sub n'} hsub hlabel' := by
    rcases Relation.ReflTransGen.cases_tail hsub with rfl | ⟨child, hsub, hchild⟩
    · rw [hlabel, Option.some.injEq] at hlabel'
      subst hlabel'
      exact ⟨id, hpath, hhas⟩
    · exact (hbelow child hchild).of_cons.off hsub hlabel'
  once := by
    rintro ⟨outer, inner, n', houter, hinner, hlabel', hlabel'', hspan⟩
    rcases Relation.ReflTransGen.cases_tail houter with rfl | ⟨child, houter, hchild⟩
    · -- The tree itself cannot come up again, since its node is on the path of
      -- everything below.
      rcases Relation.TransGen.tail'_iff.mp hinner with ⟨child, hinner, hchild⟩
      rcases (hbelow child hchild).off hinner hlabel'' with ⟨v, hv, hhas'⟩
      rw [hspan] at hhas'
      rw [hlabel, Option.some.injEq] at hlabel'
      subst hlabel'
      exact hv (hsound.unique hhas hhas' ▸ List.mem_cons_self)
    · exact (hbelow child hchild).once ⟨outer, inner, n', houter, hinner, hlabel', hlabel'', hspan⟩

/-- A tree without a nonterminal is new. -/
theorem Tree.new_leaf (path : List NodeId) (token : Tok) (span : Span) :
    (leaf token span : Tree N Tok).New f path where
  off {sub n} hsub hlabel := by
    rcases Relation.ReflTransGen.cases_tail hsub with rfl | ⟨child, _, hchild⟩
    · cases hlabel
    · exact absurd hchild List.not_mem_nil
  once := by
    rintro ⟨outer, inner, n, houter, hinner, hlabel, _⟩
    rcases Relation.ReflTransGen.cases_tail houter with rfl | ⟨child, _, hchild⟩
    · cases hlabel
    · exact absurd hchild List.not_mem_nil

/-- The trees of a walk are new. -/
theorem Forest.Walked.new (hsound : f.Sound g input) {path : List NodeId} {id : NodeId}
    {trees : List (Tree N Tok)} (h : f.Walked g input tokens path id trees) :
    ∀ tree ∈ trees, tree.New f path := by
  induction h with
  | leaf hhas => exact List.forall_mem_singleton.mpr (Tree.new_leaf _ _ _)
  | covert hpath hhas =>
      refine List.forall_mem_singleton.mpr (hsound.new hpath hhas rfl ?_)
      exact fun _ hchild => absurd hchild List.not_mem_nil
  | single hpath hhas _ ih =>
      exact List.forall_mem_singleton.mpr (hsound.new hpath hhas rfl ih)
  | whole hpath hhas _ _ _ _ _ _ _ ihBefore ihLast =>
      have hbelow := List.forall_mem_append.mpr ⟨ihBefore, ihLast⟩
      exact List.forall_mem_singleton.mpr (hsound.new hpath hhas rfl hbelow)
  | part _ _ _ _ _ _ _ _ _ ihBefore ihLast =>
      have hbelow := List.forall_mem_append.mpr ⟨ihBefore, ihLast⟩
      exact fun tree htree => (hbelow tree htree).of_cons

end EarleyForest
