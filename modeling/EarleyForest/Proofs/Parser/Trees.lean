import EarleyForest.Proofs.Enumeration.Multiplicity
import EarleyForest.Proofs.Enumeration.Sequence
import EarleyForest.Proofs.Parser.Outcome

/-!
# The Trees of a Parse

What an enumeration from the root of a parse gives, if no derivation tree of
the input repeats itself: all derivation trees, each as often as its
multiplicity says.

So only rules of three symbols or more that stand in the grammar several times
make a tree come several times. If there are none, the trees are all different.

## Main definitions

* `Tree.Parses`: A tree shows how the start symbol derives the input.
* `Parser.Yields`: The trees that an enumeration from the root gives.

## Theorems

* `yields_nested_root`: What comes from the root is listed by nested loops.
* `yields_of_not_repeats`: Every derivation tree comes as often as its
  multiplicity says.
-/

namespace EarleyForest

variable {T N Tok : Type}

/-- A tree shows how the start symbol derives the whole input. -/
def Tree.Parses (g : Grammar T N) (input : List T) (tokens : List Tok) (tree : Tree N Tok) : Prop :=
  tree.Shows g input tokens (.nonterminal g.start) 0 input.length

/-- In lists of one element only, an element occurs as often as the list of
    it. -/
theorem count_flatten_of_length_one {α : Type} [DecidableEq α] {ls : List (List α)}
    (hone : ∀ l ∈ ls, l.length = 1) (a : α) : ls.flatten.count a = ls.count [a] := by
  induction ls with
  | nil => rfl
  | cons l rest ih =>
      rcases List.length_eq_one_iff.mp (hone l List.mem_cons_self) with ⟨b, rfl⟩
      rw [List.flatten_cons, List.count_append, List.count_cons,
        ih fun l hl => hone l (List.mem_cons_of_mem _ hl), Nat.add_comm]
      simp only [List.count_cons, List.count_nil, beq_iff_eq, List.singleton_inj, Nat.zero_add]

namespace Parser

variable [DecidableEq T] [DecidableEq N]

/-- The trees that an enumeration from the root of a parse gives, one at a
    time, until there is none left. -/
def Yields (p : Parser T N) (input : List T) (tokens : List Tok) (trees : List (Tree N Tok)) :
    Prop :=
  ∃ e, Enumeration.ofRoot (p.parse input).forest (p.parse input).root tokens Builder.tree = .ok e ∧
    e.Yields trees

/-- An enumeration from the root of a parse gives what nested loops below the
    root list, and the trees for the root are the derivation trees. Without a
    root there are none of either. -/
theorem yields_nested_root (p : Parser T N) (input : List T) (tokens : List Tok)
    (htokens : input.length ≤ tokens.length) :
    (p.Yields input tokens ([] : List (Tree N Tok)) ∧
        ∀ tree : Tree N Tok, ¬ tree.Parses p.grammar input tokens) ∨
      ∃ id, (p.parse input).forest.Has id (.nonterminal p.grammar.start) ⟨0, input.length⟩ ∧
        p.Yields input tokens
          (Enumeration.nested (p.parse input).forest tokens Builder.tree [] id).flatten ∧
        ∀ trees : List (Tree N Tok),
          (p.parse input).forest.Shown p.grammar input tokens id trees ↔
            ∃ tree, trees = [tree] ∧ tree.Parses p.grammar input tokens := by
  have hexact : (p.parse input).forest.Exact p.grammar input := p.grammar.parse_exact input
  have hroot : ∀ id, (p.parse input).root = some id ↔
      (p.parse input).forest.Has id (.nonterminal p.grammar.start) ⟨0, input.length⟩ :=
    p.grammar.parse_root_eq_some_iff input
  unfold Yields
  cases hid : (p.parse input).root with
  | none =>
      -- Without a root the input is not derived, so there are no trees.
      refine Or.inl ⟨⟨_, rfl, .nil rfl rfl⟩, fun tree htree => ?_⟩
      have hholds : (Label.nonterminal p.grammar.start : Label T N).Holds p.grammar input
          ⟨0, input.length⟩ := ⟨.start, Tree.derives_of_shows htree⟩
      rcases hexact.has hholds with ⟨id, hhas⟩
      rw [(hroot id).mpr hhas] at hid
      cases hid
  | some id =>
      have hhas := (hroot id).mp hid
      have hhas' : (p.parse input).forest.Has id
          (Symbol.nonterminal p.grammar.start : Symbol T N).label ⟨0, input.length⟩ := hhas
      exact Or.inr ⟨id, hhas, Enumeration.yields_nested hexact.sound hhas rfl htokens Builder.tree,
        fun trees => Forest.shown_symbol_iff hhas'⟩

variable [DecidableEq Tok]

/-- Below the root a derivation tree whose way down is free occurs as often as
    its multiplicity says. -/
theorem count_flatten_nested (p : Parser T N) {input : List T} {tokens : List Tok} {id : NodeId}
    (hshown : ∀ trees : List (Tree N Tok),
      (p.parse input).forest.Shown p.grammar input tokens id trees ↔
        ∃ tree, trees = [tree] ∧ tree.Parses p.grammar input tokens) {tree : Tree N Tok}
    (htree : tree.Parses p.grammar input tokens)
    (hfree : (p.parse input).forest.Free p.grammar input tokens [] (id, [tree])) :
    (Enumeration.nested (p.parse input).forest tokens Builder.tree [] id).flatten.count tree =
      tree.multiplicity p.grammar input := by
  have hexact : (p.parse input).forest.Exact p.grammar input := p.grammar.parse_exact input
  rw [count_flatten_of_length_one, Enumeration.count_nested hexact hfree
    ((hshown [tree]).mpr ⟨tree, rfl, htree⟩), Tree.multiplicityAll_singleton]
  intro trees hmem
  rcases (hshown trees).mp (Enumeration.shown_of_mem_nested hexact.sound hmem) with ⟨only, rfl, _⟩
  rfl

/-- If no derivation tree repeats itself, the trees that come are as many of
    each derivation tree as its multiplicity says. -/
theorem exists_yields (p : Parser T N) (input : List T) (tokens : List Tok)
    (htokens : input.length ≤ tokens.length)
    (hrepeats : ∀ tree : Tree N Tok, tree.Parses p.grammar input tokens → ¬ tree.Repeats) :
    ∃ trees, p.Yields input tokens trees ∧
      (∀ tree, tree ∈ trees → tree.Parses p.grammar input tokens) ∧
      ∀ tree, tree.Parses p.grammar input tokens →
        trees.count tree = tree.multiplicity p.grammar input := by
  have hsound := (p.grammar.parse_exact input).sound
  rcases p.yields_nested_root input tokens htokens with
    ⟨hyields, hnone⟩ | ⟨id, hhas, hyields, hshown⟩
  · exact ⟨[], hyields, fun _ h => absurd h List.not_mem_nil,
      fun tree htree => absurd htree (hnone tree)⟩
  · have hclear := hsound.not_cycle_of_not_repeats htokens hhas hrepeats
    refine ⟨_, hyields, fun tree htree => ?_,
      fun tree htree => p.count_flatten_nested hshown htree (hclear.free [tree])⟩
    rcases List.mem_flatten.mp htree with ⟨trees, hmem, htree⟩
    rcases (hshown trees).mp (Enumeration.shown_of_mem_nested hsound hmem) with
      ⟨only, rfl, hparses⟩
    rwa [List.mem_singleton.mp htree]

/-- If no derivation tree repeats itself, the trees that come are the
    derivation trees, each as often as its multiplicity says. They are all
    different if no long rule stands in the grammar twice, and to write a
    short rule again does not add to them. -/
theorem yields_of_not_repeats (p : Parser T N) (input : List T) (tokens : List Tok)
    (htokens : input.length ≤ tokens.length)
    (hrepeats : ∀ tree : Tree N Tok, tree.Parses p.grammar input tokens → ¬ tree.Repeats) :
    ∃ trees, p.Yields input tokens trees ∧
      (∀ tree, tree ∈ trees ↔ tree.Parses p.grammar input tokens) ∧
      (∀ tree ∈ trees, trees.count tree = tree.multiplicity p.grammar input) ∧
      ((p.grammar.rules.filter fun r => 3 ≤ r.body.length).Nodup → trees.Nodup) ∧
      ∀ q : Parser T N, q.grammar.start = p.grammar.start →
        (∀ r, r ∈ q.grammar.rules ↔ r ∈ p.grammar.rules) →
        (∀ r : Rule T N, 3 ≤ r.body.length →
          q.grammar.rules.count r = p.grammar.rules.count r) →
        ∃ trees', q.Yields input tokens trees' ∧ trees'.Perm trees := by
  rcases p.exists_yields input tokens htokens hrepeats with ⟨trees, hyields, hparses, hcount⟩
  -- A tree that shows the input has a multiplicity, so it does occur.
  refine ⟨trees, hyields, fun tree => ⟨hparses tree, fun htree => ?_⟩,
    fun tree htree => hcount tree (hparses tree htree), fun hlong => ?_,
    fun q hstart hrules hlong => ?_⟩
  · rw [← List.count_pos_iff, hcount tree htree]
    exact Tree.Shows.multiplicity_pos htree
  · refine List.nodup_iff_count_eq_one.mpr fun tree htree => ?_
    rw [hcount tree (hparses tree htree)]
    exact Tree.Shows.multiplicity_eq_one hlong (hparses tree htree)
  · -- Both grammars have the same derivation trees.
    have hsame : ∀ tree : Tree N Tok, tree.Parses q.grammar input tokens ↔
        tree.Parses p.grammar input tokens := by
      intro tree
      rw [Tree.Parses, Tree.Parses, hstart]
      exact ⟨Tree.Shows.of_rules fun r => (hrules r).mp,
        Tree.Shows.of_rules fun r => (hrules r).mpr⟩
    rcases q.exists_yields input tokens htokens fun tree h => hrepeats tree ((hsame tree).mp h) with
      ⟨trees', hyields', hparses', hcount'⟩
    refine ⟨trees', hyields', List.perm_iff_count.mpr fun tree => ?_⟩
    by_cases htree : tree.Parses p.grammar input tokens
    · rw [hcount tree htree, hcount' tree ((hsame tree).mpr htree)]
      exact Tree.Shows.multiplicity_congr hlong htree
    · rw [List.count_eq_zero_of_not_mem fun h => htree (hparses tree h),
        List.count_eq_zero_of_not_mem fun h => htree ((hsame tree).mp (hparses' tree h))]

/-- A long rule that stands in the grammar twice, over a short one that does
    so as well and an empty one. A head has a greater number than the
    nonterminals of its rules. -/
def doubled : Parser Char Nat where
  grammar := ⟨1, [
    ⟨1, [.nonterminal 0, .nonterminal 0, .nonterminal 0]⟩,
    ⟨1, [.nonterminal 0, .nonterminal 0, .nonterminal 0]⟩,
    ⟨0, [.terminal 'a']⟩, ⟨0, [.terminal 'a']⟩, .epsilon 0]⟩
  spelling := ⟨String.singleton, Nat.repr⟩
  valid := by decide

/-- Because of its long rule, a tree comes twice. -/
theorem doubled_yields_twice :
    ∃ trees : List (Tree Nat Char), doubled.Yields ['a'] ['a'] trees ∧
      trees.count (.branch 1 ⟨0, 1⟩
        [.branch 0 ⟨0, 1⟩ [.leaf 'a' ⟨0, 1⟩], .covert 0 1, .covert 0 1]) = 2 := by
  have hrank : ∀ r ∈ doubled.grammar.rules, ∀ n ∈ r.body.filterMap Symbol.nonterminal?,
      id n < id r.head := by decide
  have hrepeats : ∀ tree : Tree Nat Char, tree.Parses doubled.grammar ['a'] ['a'] →
      ¬ tree.Repeats := fun _ htree => htree.not_repeats hrank
  rcases yields_of_not_repeats doubled ['a'] ['a'] (Nat.le_refl _) hrepeats with
    ⟨trees, hyields, hmem, hcount, _⟩
  refine ⟨trees, hyields, ?_⟩
  rw [hcount _ ((hmem _).mpr ?_)]
  · decide
  · have hfirst : Rule.mk 1 (.replicate 3 (.nonterminal 0)) ∈ doubled.grammar.rules := by decide
    have hsecond : Rule.mk 0 [.terminal 'a'] ∈ doubled.grammar.rules := by decide
    have hthird : Rule.epsilon 0 ∈ doubled.grammar.rules := by decide
    refine .branch hfirst (by decide) (.cons (.branch hsecond (by decide) ?_)
      (.cons (.covert 1 hthird) (.cons (.covert 1 hthird) (.nil 1))))
    exact .cons (.leaf rfl rfl) (.nil 1)

end Parser

end EarleyForest
