import EarleyForest.Proofs.Enumeration.Survey
import EarleyForest.Proofs.Tree.Showing

/-!
# Putting Trees Together

What the derivations below a node make are trees that show what the node says.
A family puts the trees of its children side by side. For a part of a rule's
body that is all; for a nonterminal they are the children of one tree more.

## Main definitions

* `Forest.Shown`: Trees show what a node says.
* `Forest.ShownBelow`: Trees show what the children of a family say.

## Theorems

* `showAll_of_binary`: The trees of two children side by side.
* `showAll_assemble`: A family puts trees together that show what its node
  says.
* `shown_of_mem_nested`: Everything below a node shows what the node says.
* `exists_shown`: What a node says is shown by trees.
-/

namespace EarleyForest

variable {T N Tok : Type} {g : Grammar T N} {input : List T} {tokens : List Tok}
  {f : Forest T N}

namespace Forest

/-- Trees side by side show what a node says. -/
def Shown (g : Grammar T N) (input : List T) (tokens : List Tok) (f : Forest T N) (id : NodeId)
    (trees : List (Tree N Tok)) : Prop :=
  ∃ label span, f.Has id label span ∧
    Tree.ShowAll g input tokens trees (g.spelled label) span.start span.stop

/-- Trees side by side show what the children of a family say. -/
def ShownBelow (g : Grammar T N) (input : List T) (tokens : List Tok) (f : Forest T N)
    (family : Family) (trees : List (Tree N Tok)) : Prop :=
  match family with
  | .epsilon => trees = []
  | .unary child => f.Shown g input tokens child trees
  | .binary left right => ∃ before behind, trees = before ++ behind ∧
    f.Shown g input tokens left before ∧ f.Shown g input tokens right behind

theorem shown_iff {id : NodeId} {label : Label T N} {span : Span} (hhas : f.Has id label span)
    {trees : List (Tree N Tok)} : f.Shown g input tokens id trees ↔
      Tree.ShowAll g input tokens trees (g.spelled label) span.start span.stop := by
  constructor
  · rintro ⟨label', span', hhas', hshow⟩
    rcases hhas.eq hhas' with ⟨rfl, rfl⟩
    exact hshow
  · intro hshow
    exact ⟨label, span, hhas, hshow⟩

/-- The node of a symbol is shown by one tree. -/
theorem shown_symbol_iff {id : NodeId} {s : Symbol T N} {i j : Nat}
    (hhas : f.Has id s.label ⟨i, j⟩) {trees : List (Tree N Tok)} :
    f.Shown g input tokens id trees ↔ ∃ tree, trees = [tree] ∧ tree.Shows g input tokens s i j := by
  rw [shown_iff hhas, Grammar.spelled_label]
  exact Tree.showAll_singleton_iff

/-- The node of a match behind which a symbol is left is shown by trees for the
    symbols matched. -/
theorem shown_prefix_iff {id : NodeId} {rule dot : Nat} {r : Rule T N} {label : Label T N}
    {i j : Nat} (hlabel : g.labelAt? rule dot = some label) (hr : g.rules[rule]? = some r)
    (hlt : dot < r.body.length) (hhas : f.Has id label ⟨i, j⟩) {trees : List (Tree N Tok)} :
    f.Shown g input tokens id trees ↔
      Tree.ShowAll g input tokens trees (r.body.take dot) i j := by
  rw [shown_iff hhas, Grammar.spelled_labelAt? hlabel hr hlt]

/-- Trees for a match and for the symbol behind it are trees for one symbol
    more. -/
theorem showAll_of_binary {rule dot i k j : Nat} {r : Rule T N} {first : Label T N}
    {s : Symbol T N} {left right : NodeId} (hfirst : g.labelAt? rule dot = some first)
    (hr : g.rules[rule]? = some r) (hs : r.body[dot]? = some s) (hleft : f.Has left first ⟨i, k⟩)
    (hright : f.Has right s.label ⟨k, j⟩) {trees : List (Tree N Tok)}
    (h : f.ShownBelow g input tokens (.binary left right) trees) :
    Tree.ShowAll g input tokens trees (r.body.take (dot + 1)) i j := by
  rcases h with ⟨before, behind, rfl, hbefore, hbehind⟩
  have hlt := (List.getElem?_eq_some_iff.mp hs).1
  rw [shown_prefix_iff hfirst hr hlt hleft] at hbefore
  rw [shown_iff hright, Grammar.spelled_label] at hbehind
  rw [List.take_add_one, hs, Option.toList_some]
  exact Tree.showAll_append_iff.mpr ⟨_, _, k, rfl, hbefore, hbehind⟩

/-- What a node says is shown by trees if there are tokens for their leaves. -/
theorem exists_shown (hsound : f.Sound g input) (htokens : input.length ≤ tokens.length)
    {id : NodeId} {label : Label T N} {span : Span} (hhas : f.Has id label span) :
    ∃ trees : List (Tree N Tok), f.Shown g input tokens id trees := by
  rcases Tree.exists_showAll (hsound.holds hhas).derives htokens with ⟨trees, hshow⟩
  exact ⟨trees, label, span, hhas, hshow⟩

end Forest

namespace Enumeration

/-- A family puts trees together that show what its node says. -/
theorem showAll_assemble {label : Label T N} {span : Span} {family : Family}
    {trees : List (Tree N Tok)} (hway : f.Way g label span family)
    (hbelow : f.ShownBelow g input tokens family trees) :
    Tree.ShowAll g input tokens (assemble Builder.tree label span family trees)
      (g.spelled label) span.start span.stop := by
  cases hway with
  | @epsilon n i hrule =>
      have hnil : trees = [] := hbelow
      subst hnil
      exact .cons (.covert i hrule) (.nil i)
  | @unary n s span child hrule hchild =>
      rcases (Forest.shown_symbol_iff hchild).mp hbelow with ⟨tree, rfl, hshows⟩
      have hparts := Tree.showAll_singleton_iff.mpr ⟨tree, rfl, hshows⟩
      exact .cons (.branch hrule (List.cons_ne_nil _ _) hparts) (.nil _)
  | @binary rule dot i k j first label s left right hfirst hs hlabel hleft hright =>
      rcases Grammar.symbolAt?_eq_some_iff.mp hs with ⟨r, hr, hs'⟩
      have hlt := (List.getElem?_eq_some_iff.mp hs').1
      -- The trees of both children side by side show one symbol more.
      have hparts := Forest.showAll_of_binary hfirst hr hs' hleft hright hbelow
      -- The left child has a label, so there is a symbol before this one.
      have hpos : ¬ (dot = 0 ∧ 1 < r.body.length) := by
        rintro ⟨rfl, _⟩
        rw [Grammar.labelAt?_zero] at hfirst
        cases hfirst
      rw [Grammar.labelAt?_succ hr hs', if_neg hpos, Option.some.injEq] at hlabel
      by_cases hwhole : dot + 1 = r.body.length
      · -- The whole body is there, so its head makes a tree of it.
        rw [if_pos hwhole] at hlabel
        subst hlabel
        rw [hwhole, List.take_length] at hparts
        have hbody : r.body ≠ [] := List.ne_nil_of_length_pos (by omega)
        exact .cons (.branch (List.mem_of_getElem? hr) hbody hparts) (.nil j)
      · rw [if_neg hwhole] at hlabel
        subst hlabel
        simp only [Grammar.spelled, hr, Option.map_some, Option.getD_some]
        exact hparts

/-- Everything below a node of a sound forest shows what the node says. -/
theorem shown_of_mem_nested (hsound : f.Sound g input) {path : List NodeId} {id : NodeId}
    {trees : List (Tree N Tok)} (h : trees ∈ nested f tokens Builder.tree path id) :
    f.Shown g input tokens id trees := by
  -- By induction along the loops: what is below a family shows what its
  -- children say.
  induction path, id using nested.induct f generalizing trees with
  | case1 path id hnode =>
      rw [nested_missing hnode] at h
      exact absurd h List.not_mem_nil
  | case2 path id node hnode t hlabel =>
      rw [nested_leaf hnode hlabel] at h
      rcases List.mem_map.mp h with ⟨token, htoken, rfl⟩
      rcases node with ⟨label, ⟨i, j⟩, families⟩
      have hhas : f.Has id label ⟨i, j⟩ := ⟨families, hnode⟩
      simp only at hlabel htoken
      subst hlabel
      rcases hsound.holds hhas with ⟨ht, rfl⟩
      exact ⟨_, _, hhas, .cons (.leaf ht (Option.mem_toList.mp htoken)) (.nil (i + 1))⟩
  | case3 path id node hnode hpath hlabel =>
      rw [nested_cycle hnode hlabel hpath] at h
      exact absurd h List.not_mem_nil
  | case4 path id node hnode hpath hlabel ih =>
      rcases exists_family_of_mem_nested hnode hlabel hpath h with
        ⟨family, hfamily, below, hbelow, rfl⟩
      have hway := hsound.way ⟨node.families, hnode, hfamily⟩
      refine ⟨_, _, Forest.has_of_node? hnode, showAll_assemble hway ?_⟩
      cases family with
      | epsilon => exact List.mem_singleton.mp hbelow
      | unary child => exact ih child hbelow
      | binary left right =>
          rcases mem_nestedBelow_binary.mp hbelow with ⟨before, behind, rfl, hbefore, hbehind⟩
          exact ⟨before, behind, rfl, ih left hbefore, ih right hbehind⟩

end Enumeration

end EarleyForest
