import EarleyForest.Proofs.Enumeration.Parts
import EarleyForest.Proofs.Parser.Trees
import EarleyForest.Proofs.Tree.Subtrees

/-!
# Which Trees Are Pruned

In a forest with cycles the derivations are infinitely many, and those that
come are the ones in which no node is met again below itself. If no rule stands
in the grammar twice, a derivation tree tells which these are: neither a
nonterminal nor a part of a rule's body occurs inside itself over the same
span. Each of them comes once.

It is not enough to look at nonterminals. A part of a rule's body may occur
inside itself where no nonterminal does, and the tree does not come.

## Main definitions

* `inlaid`: A grammar in which a part of a body occurs inside itself.
* `inlaidOnce`, `inlaidTwice`: Two of its trees.

## Theorems

* `repeats_iff`, `repeatsPart_iff`: Repetitions can be looked for.
* `Yields.unique`: What an enumeration gives is determined.
* `yields_not_repeating`: The trees that come, for distinct rules.
* `inlaid_not_yielded`: A tree that repeats no nonterminal and does not come.
-/

namespace EarleyForest

variable {T N Tok : Type}

namespace Tree

/-- A nonterminal that occurs inside itself is found among the subtrees. -/
theorem repeats_iff {tree : Tree N Tok} : tree.Repeats ↔
    ∃ outer ∈ tree.subtrees, ∃ part ∈ outer.children, ∃ inner ∈ part.subtrees,
      outer.label?.isSome = true ∧ inner.label? = outer.label? ∧ inner.span = outer.span := by
  simp only [mem_subtrees_iff]
  constructor
  · rintro ⟨outer, inner, n, houter, hinner, hlabel, hlabel', hspan⟩
    rcases Relation.TransGen.tail'_iff.mp hinner with ⟨part, hinner, hpart⟩
    exact ⟨outer, houter, part, hpart, inner, hinner, Option.isSome_of_eq_some hlabel,
      hlabel'.trans hlabel.symm, hspan⟩
  · rintro ⟨outer, houter, part, hpart, inner, hinner, hsome, hlabel, hspan⟩
    rcases Option.isSome_iff_exists.mp hsome with ⟨n, hn⟩
    exact ⟨outer, inner, n, houter, Relation.TransGen.tail' hinner hpart, hn, hlabel.trans hn,
      hspan⟩

instance [DecidableEq N] (tree : Tree N Tok) : Decidable tree.Repeats :=
  decidable_of_iff _ repeats_iff.symm

/-- A part of a rule's body that occurs inside itself is found among the
    subtrees. -/
theorem repeatsPart_iff {input : List T} {tree : Tree N Tok} : tree.RepeatsPart input ↔
    ∃ outer ∈ tree.subtrees, ∃ r ∈ (outer.rule? input).toList,
      ∃ dot ∈ List.range r.body.length, 2 ≤ dot ∧ ∃ part ∈ outer.children.take dot,
        ∃ inner ∈ part.subtrees, inner.rule? input = some r ∧ inner.upTo dot = outer.upTo dot := by
  simp only [mem_subtrees_iff, Option.mem_toList, List.mem_range]
  constructor
  · rintro ⟨outer, inner, r, dot, houter, ⟨part, hpart, hinner⟩, htwo, hlt, hrule, hrule', hsame⟩
    exact ⟨outer, houter, r, hrule, dot, hlt, htwo, part, hpart, inner, hinner, hrule', hsame⟩
  · rintro ⟨outer, houter, r, hrule, dot, hlt, htwo, part, hpart, inner, hinner, hrule', hsame⟩
    exact ⟨outer, inner, r, dot, houter, ⟨part, hpart, hinner⟩, htwo, hlt, hrule, hrule', hsame⟩

instance [DecidableEq T] [DecidableEq N] (input : List T) (tree : Tree N Tok) :
    Decidable (tree.RepeatsPart input) := decidable_of_iff _ repeatsPart_iff.symm

end Tree

/-- What an enumeration gives is determined. -/
theorem Enumeration.Yields.unique {Out : Type} {e : Enumeration T N Tok Out} {outs outs' : List Out}
    (h : e.Yields outs) (h' : e.Yields outs') : outs = outs' :=
  List.ext_getElem? fun count =>
    (given?_of_yields h count).symm.trans (given?_of_yields h' count)

namespace Parser

variable [DecidableEq T] [DecidableEq N]

/-- What an enumeration from the root of a parse gives is determined. -/
theorem Yields.unique {p : Parser T N} {input : List T}
    {tokens : List Tok} {trees trees' : List (Tree N Tok)} (h : p.Yields input tokens trees)
    (h' : p.Yields input tokens trees') : trees = trees' := by
  rcases h with ⟨e, he, hyields⟩
  rcases h' with ⟨e', he', hyields'⟩
  rw [he, Except.ok.injEq] at he'
  subst he'
  exact hyields.unique hyields'

/-- If no rule stands in the grammar twice, what nested loops below the root
    list are derivation trees that repeat nothing. -/
theorem not_repeating_of_mem (p : Parser T N) (hrules : p.grammar.rules.Nodup) {input : List T}
    {tokens : List Tok} {id : NodeId}
    (hshown : ∀ trees : List (Tree N Tok),
      (p.parse input).forest.Shown p.grammar input tokens id trees ↔
        ∃ tree, trees = [tree] ∧ tree.Parses p.grammar input tokens) {tree : Tree N Tok}
    (h : tree ∈ (Enumeration.nested (p.parse input).forest tokens Builder.tree [] id).flatten) :
    tree.Parses p.grammar input tokens ∧ ¬ tree.Repeats ∧ ¬ tree.RepeatsPart input := by
  have hsound := (p.grammar.parse_exact input).sound
  rcases List.mem_flatten.mp h with ⟨trees, hmem, htree⟩
  have hwalked := Enumeration.walked_of_mem_nested hsound hmem
  rcases (hshown trees).mp (Enumeration.shown_of_mem_nested hsound hmem) with ⟨only, rfl, hparses⟩
  rw [List.mem_singleton] at htree
  subst htree
  exact ⟨hparses, (hwalked.new hsound tree (List.mem_singleton_self tree)).once,
    ((hwalked.newParts hsound hrules).1 tree (List.mem_singleton_self tree)).once⟩

/-- The trees that come if no rule stands in the grammar twice: those that
    repeat neither a nonterminal nor a part of a rule's body, each of them
    once. -/
theorem yields_not_repeating [DecidableEq Tok] (p : Parser T N) (hrules : p.grammar.rules.Nodup)
    (input : List T) (tokens : List Tok) (htokens : input.length ≤ tokens.length) :
    ∃ trees : List (Tree N Tok), p.Yields input tokens trees ∧ trees.Nodup ∧
      ∀ tree, tree ∈ trees ↔ tree.Parses p.grammar input tokens ∧ ¬ tree.Repeats ∧
        ¬ tree.RepeatsPart input := by
  have hsound := (p.grammar.parse_exact input).sound
  rcases p.yields_nested_root input tokens htokens with
    ⟨hyields, hnone⟩ | ⟨id, hhas, hyields, hshown⟩
  · exact ⟨[], hyields, List.nodup_nil,
      fun tree => ⟨fun h => absurd h List.not_mem_nil, fun h => absurd h.1 (hnone tree)⟩⟩
  · have hhas' : (p.parse input).forest.Has id
        (Symbol.nonterminal p.grammar.start : Symbol T N).label ⟨0, input.length⟩ := hhas
    have hmem : ∀ tree, tree ∈ (Enumeration.nested (p.parse input).forest tokens Builder.tree
        [] id).flatten → tree.Parses p.grammar input tokens ∧ ¬ tree.Repeats ∧
          ¬ tree.RepeatsPart input := fun tree => p.not_repeating_of_mem hrules hshown
    have hcount : ∀ tree, tree.Parses p.grammar input tokens ∧ ¬ tree.Repeats ∧
        ¬ tree.RepeatsPart input → (Enumeration.nested (p.parse input).forest tokens Builder.tree
          [] id).flatten.count tree = 1 := by
      rintro tree ⟨htree, hrepeats, hpart⟩
      -- Nothing is repeated, so nothing is met again.
      have hfree : (p.parse input).forest.Free p.grammar input tokens [] (id, [tree]) := by
        refine by_contra fun hnot => ?_
        rcases Forest.repeats_of_not_free hsound hhas' ((hshown [tree]).mpr ⟨tree, rfl, htree⟩)
          hnot with h | h
        · exact hrepeats h
        · exact hpart h
      rw [p.count_flatten_nested hshown htree hfree]
      exact Tree.Shows.multiplicity_eq_one (hrules.filter _) htree
    refine ⟨_, hyields, ?_, fun tree => ⟨hmem tree, fun h => ?_⟩⟩
    · exact List.nodup_iff_count_eq_one.mpr fun tree htree => hcount tree (hmem tree htree)
    · exact List.count_pos_iff.mp (Nat.lt_of_lt_of_eq Nat.one_pos (hcount tree h).symm)

/-- A rule of three symbols, the first of which may stand for its head again.
    All three may be empty. -/
def inlaid : Parser Char Nat where
  grammar := ⟨0, [
    ⟨0, [.nonterminal 1, .nonterminal 2, .nonterminal 3]⟩, ⟨1, [.nonterminal 0]⟩, .epsilon 1,
    ⟨2, [.terminal 'a']⟩, .epsilon 2, ⟨3, [.terminal 'b']⟩, .epsilon 3]⟩
  spelling := ⟨String.singleton, Nat.repr⟩
  valid := by decide

/-- Two letters by the long rule. -/
def inlaidOnce : Tree Nat Char :=
  .branch 0 ⟨0, 2⟩ [.covert 1 0, .branch 2 ⟨0, 1⟩ [.leaf 'a' ⟨0, 1⟩],
    .branch 3 ⟨1, 2⟩ [.leaf 'b' ⟨1, 2⟩]]

/-- The same letters, the first one by the long rule once more. Its first two
    symbols derive that letter, and so they do inside themselves. -/
def inlaidTwice : Tree Nat Char :=
  .branch 0 ⟨0, 2⟩ [
    .branch 1 ⟨0, 1⟩ [.branch 0 ⟨0, 1⟩
      [.covert 1 0, .branch 2 ⟨0, 1⟩ [.leaf 'a' ⟨0, 1⟩], .covert 3 1]],
    .covert 2 1, .branch 3 ⟨1, 2⟩ [.leaf 'b' ⟨1, 2⟩]]

/-- The tree without a detour comes once. -/
theorem inlaid_yields_once :
    inlaid.grammar.rules.Nodup ∧ ['a', 'b'].length ≤ ['a', 'b'].length ∧
      ∃ trees, inlaid.Yields ['a', 'b'] ['a', 'b'] trees ∧ trees.count inlaidOnce = 1 := by
  have hrules : inlaid.grammar.rules.Nodup := by decide
  rcases yields_not_repeating inlaid hrules ['a', 'b'] ['a', 'b'] (Nat.le_refl 2) with
    ⟨trees, hyields, hnodup, hmem⟩
  refine ⟨hrules, Nat.le_refl 2, trees, hyields, List.count_eq_one_of_mem hnodup ?_⟩
  refine (hmem inlaidOnce).mpr ⟨?_, by decide +kernel, by decide +kernel⟩
  have hlong : (⟨0, [.nonterminal 1, .nonterminal 2, .nonterminal 3]⟩ : Rule Char Nat) ∈
      inlaid.grammar.rules := by decide
  have ha : (⟨2, [.terminal 'a']⟩ : Rule Char Nat) ∈ inlaid.grammar.rules := by decide
  have hb : (⟨3, [.terminal 'b']⟩ : Rule Char Nat) ∈ inlaid.grammar.rules := by decide
  refine .branch hlong (List.cons_ne_nil _ _) (.cons (.covert 0 (by decide))
    (.cons (.branch ha (List.cons_ne_nil _ _) ?_)
      (.cons (.branch hb (List.cons_ne_nil _ _) ?_) (.nil 2))))
  · exact .cons (.leaf rfl rfl) (.nil 1)
  · exact .cons (.leaf rfl rfl) (.nil 2)

/-- The tree with a detour repeats no nonterminal, and does not come. -/
theorem inlaid_not_yielded :
    inlaid.grammar.rules.Nodup ∧ inlaidTwice.Parses inlaid.grammar ['a', 'b'] ['a', 'b'] ∧
      ¬ inlaidTwice.Repeats ∧
      ∀ trees, inlaid.Yields ['a', 'b'] ['a', 'b'] trees → inlaidTwice ∉ trees := by
  have hrules : inlaid.grammar.rules.Nodup := by decide
  refine ⟨hrules, ?_, by decide +kernel, fun trees hyields hmem => ?_⟩
  · have hlong : (⟨0, [.nonterminal 1, .nonterminal 2, .nonterminal 3]⟩ : Rule Char Nat) ∈
        inlaid.grammar.rules := by decide
    have hagain : (⟨1, [.nonterminal 0]⟩ : Rule Char Nat) ∈ inlaid.grammar.rules := by decide
    have ha : (⟨2, [.terminal 'a']⟩ : Rule Char Nat) ∈ inlaid.grammar.rules := by decide
    have hb : (⟨3, [.terminal 'b']⟩ : Rule Char Nat) ∈ inlaid.grammar.rules := by decide
    have hinner : Tree.Shows inlaid.grammar ['a', 'b'] ['a', 'b']
        (.branch 0 ⟨0, 1⟩ [.covert 1 0, .branch 2 ⟨0, 1⟩ [.leaf 'a' ⟨0, 1⟩], .covert 3 1])
        (.nonterminal 0) 0 1 := by
      refine .branch hlong (List.cons_ne_nil _ _) (.cons (.covert 0 (by decide))
        (.cons (.branch ha (List.cons_ne_nil _ _) ?_) (.cons (.covert 1 (by decide)) (.nil 1))))
      exact .cons (.leaf rfl rfl) (.nil 1)
    refine .branch hlong (List.cons_ne_nil _ _) (.cons (.branch hagain (List.cons_ne_nil _ _) ?_)
      (.cons (.covert 1 (by decide)) (.cons (.branch hb (List.cons_ne_nil _ _) ?_) (.nil 2))))
    · exact .cons hinner (.nil 1)
    · exact .cons (.leaf rfl rfl) (.nil 2)
  · rcases inlaid.yields_nested_root ['a', 'b'] ['a', 'b'] (Nat.le_refl 2) with
      ⟨hnone, _⟩ | ⟨id, _, hnested, hshown⟩
    · rw [hyields.unique hnone] at hmem
      exact absurd hmem List.not_mem_nil
    · rw [hyields.unique hnested] at hmem
      have hpart : inlaidTwice.RepeatsPart ['a', 'b'] := by decide +kernel
      exact (inlaid.not_repeating_of_mem hrules hshown hmem).2.2 hpart

end Parser

end EarleyForest
