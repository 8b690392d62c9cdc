import EarleyForest.Proofs.Enumeration.Renumbered
import EarleyForest.Proofs.Grammar.Offenders
import EarleyForest.Proofs.Parser.Trees

/-!
# The Order of Rules

The order in which rules stand in a grammar decides in which order items,
nodes, families and trees are found, and which number each of them gets. It
decides nothing else. A parser for the same rules in another order accepts the
same inputs, has the same items in its columns and the same forest but for the
numbers, and gives the same trees, each as often as before.

## Main definitions

* `forked`: A grammar whose start symbol has two rules for the same input.

## Theorems

* `contains_columns_iff`: The items of the columns of a parse.
* `Reorders.root_eq`: The root after a reordering.
* `reordered`: What the order of the rules decides, and what it does not.
-/

namespace EarleyForest

variable {T N : Type} [DecidableEq T] [DecidableEq N]

/-- A parse has a column for each position. -/
theorem Grammar.length_columns (g : Grammar T N) (input : List T) :
    (g.parse input).columns.length = input.length + 1 := by
  rcases Stage.parse_settled g input with ⟨s, done, hs, hparse⟩
  rw [hparse, ← hs.position, Stage.toParse, List.length_append, Array.length_toList]
  rfl

/-- The items of a column are the matches that end there, apart from those
    that expect a terminal other than the next one. -/
theorem Grammar.contains_columns_iff {g : Grammar T N} {input : List T} {j : Nat} {c : Column}
    (hc : (g.parse input).columns[j]? = some c) {rule dot origin : Nat} :
    c.contains rule dot origin = true ↔
      g.Matched input rule dot origin j ∧ g.Viable input[j]? rule dot := by
  rcases Stage.parse_settled g input with ⟨s, done, hs, hparse⟩
  rw [hparse] at hc
  rcases Stage.columnAt_of_toParse hc with ⟨hj, rfl⟩
  rw [hs.position] at hj
  exact hs.contains_iff hj

/-- The root of the parse with reordered rules is the counterpart of the
    root. -/
theorem Grammar.Reorders.root_eq {g g' : Grammar T N} {σ : Equiv.Perm Nat} {input : List T}
    {φ : NodeId → NodeId} (h : g.Reorders σ g')
    (hrenumbers : (g.parse input).forest.Renumbers σ φ (g'.parse input).forest) :
    (g'.parse input).root = (g.parse input).root.map φ := by
  cases hroot : (g.parse input).root with
  | some id =>
      rcases (g.parse_root_eq_some_iff input id).mp hroot with ⟨families, hnode⟩
      rcases hrenumbers.node hnode with ⟨families', hnode', _⟩
      rw [Option.map_some, g'.parse_root_eq_some_iff, h.start_eq]
      exact ⟨families', hnode'⟩
  | none =>
      cases hroot' : (g'.parse input).root with
      | none => rfl
      | some id' =>
          -- What the root would say is said without the reordering as well.
          have hhas' := (g'.parse_root_eq_some_iff input id').mp hroot'
          have hholds := h.symm.holds ((g'.parse_exact input).sound.holds hhas')
          rcases (g.parse_exact input).has hholds with ⟨id, hhas⟩
          rw [Label.renumber, h.start_eq, ← g.parse_root_eq_some_iff, hroot] at hhas
          cases hhas

namespace Parser

variable {Tok : Type} {p : Parser T N} {input : List T} {tokens : List Tok}

/-- Without a root there are no trees. -/
theorem yields_of_root_eq_none (hroot : (p.parse input).root = none) :
    p.Yields input tokens ([] : List (Tree N Tok)) := by
  unfold Yields
  rw [hroot]
  exact ⟨_, rfl, .nil rfl rfl⟩

/-- The trees from a root are those that nested loops list. -/
theorem yields_of_root_eq_some {id : NodeId} (hroot : (p.parse input).root = some id)
    (htokens : input.length ≤ tokens.length) :
    p.Yields input tokens
      (Enumeration.nested (p.parse input).forest tokens Builder.tree [] id).flatten := by
  have hhas := (p.grammar.parse_root_eq_some_iff input id).mp hroot
  unfold Yields
  rw [hroot]
  exact Enumeration.yields_nested (p.grammar.parse_exact input).sound hhas rfl htokens Builder.tree

/-- With the rules of a valid grammar in another order there is a parser again.
    It accepts the same inputs. Its columns have the same items, by the other
    numbers of their rules. Its forest has the same nodes with the same
    families, by other numbers, and the root of the one is the root of the
    other. The trees that come from the roots are the same ones, each as often. -/
theorem reordered (p : Parser T N) {σ : Equiv.Perm Nat} {g' : Grammar T N}
    (h : p.grammar.Reorders σ g') (input : List T) :
    ∃ q : Parser T N, ofGrammar g' p.spelling = .ok q ∧ q.grammar = g' ∧
      (q.parse input).accepted = (p.parse input).accepted ∧
      (q.parse input).columns.length = (p.parse input).columns.length ∧
      (∀ (j : Nat) (c c' : Column), (p.parse input).columns[j]? = some c →
        (q.parse input).columns[j]? = some c' →
        ∀ rule dot origin, c'.contains (σ rule) dot origin = c.contains rule dot origin) ∧
      (∃ φ, (p.parse input).forest.Renumbers σ φ (q.parse input).forest ∧
        (q.parse input).root = (p.parse input).root.map φ) ∧
      ∀ tokens : List Tok, input.length ≤ tokens.length →
        ∃ trees trees' : List (Tree N Tok), p.Yields input tokens trees ∧
          q.Yields input tokens trees' ∧ trees'.Perm trees := by
  have hvalid := h.validate_eq_ok p.valid
  have hexact : (p.parse input).forest.Exact p.grammar input := p.grammar.parse_exact input
  rcases hexact.exists_renumbers (g'.parse_exact input) h with ⟨φ, hrenumbers⟩
  have hroot := h.root_eq hrenumbers
  refine ⟨⟨g', p.spelling, hvalid⟩, ofGrammar_eq_ok hvalid p.spelling, rfl, ?_, ?_, ?_,
    ⟨φ, hrenumbers, hroot⟩, ?_⟩
  · unfold Parse.accepted
    exact (congrArg Option.isSome hroot).trans (Option.isSome_map ..)
  · exact (g'.length_columns input).trans (p.grammar.length_columns input).symm
  · intro j c c' hc hc' rule dot origin
    -- What expects the next terminal does so by either number.
    have hviable : g'.Viable input[j]? (σ rule) dot ↔ p.grammar.Viable input[j]? rule dot := by
      unfold Grammar.Viable
      rw [h.symbolAt?_eq]
    rw [Bool.eq_iff_iff, Grammar.contains_columns_iff hc', Grammar.contains_columns_iff hc,
      h.matched_iff, hviable]
  · intro tokens htokens
    cases hid : (p.parse input).root with
    | none =>
        refine ⟨[], [], yields_of_root_eq_none hid, yields_of_root_eq_none ?_, .refl _⟩
        exact hroot.trans (congrArg (Option.map φ) hid)
    | some id =>
        have hid' := hroot.trans (congrArg (Option.map φ) hid)
        have hlt := ((p.grammar.parse_root_eq_some_iff input id).mp hid).lt_size
        have hperm : (Enumeration.nested (g'.parse input).forest tokens Builder.tree [] (φ id)).Perm
            (Enumeration.nested (p.parse input).forest tokens Builder.tree [] id) :=
          Enumeration.nested_perm hexact.sound hrenumbers
            (fun above hmem => absurd hmem List.not_mem_nil) hlt
        exact ⟨_, _, yields_of_root_eq_some hid htokens, yields_of_root_eq_some hid' htokens,
          hperm.flatten⟩

/-- A letter in two ways. -/
def forked : Parser Char Nat where
  grammar := ⟨0, [⟨0, [.nonterminal 1]⟩, ⟨0, [.nonterminal 2]⟩, ⟨1, [.terminal 'a']⟩,
    ⟨2, [.terminal 'a']⟩]⟩
  spelling := ⟨String.singleton, Nat.repr⟩
  valid := by decide

/-- Over one letter its root has a family for each way. -/
theorem forked_node_three : (forked.parse ['a']).forest.node? 3 =
    some ⟨.nonterminal 0, ⟨0, 1⟩, [.unary 1, .unary 2]⟩ := by decide

/-- The first two rules exchanged. -/
theorem forked_reordered : ∃ q : Parser Char Nat,
    q.grammar = ⟨0, [⟨0, [.nonterminal 2]⟩, ⟨0, [.nonterminal 1]⟩, ⟨1, [.terminal 'a']⟩,
      ⟨2, [.terminal 'a']⟩]⟩ ∧
    (q.parse ['a']).accepted = true ∧
    ∃ trees trees' : List (Tree Nat Char), forked.Yields ['a'] ['a'] trees ∧
      q.Yields ['a'] ['a'] trees' ∧ trees'.Perm trees := by
  have hexchanged : ∃ σ, forked.grammar.Reorders σ ⟨0, [⟨0, [.nonterminal 2]⟩,
      ⟨0, [.nonterminal 1]⟩, ⟨1, [.terminal 'a']⟩, ⟨2, [.terminal 'a']⟩]⟩ :=
    Grammar.exists_reorders rfl (.swap ..)
  rcases hexchanged with ⟨σ, hreorders⟩
  rcases reordered forked hreorders ['a'] with ⟨q, _, hq, haccepted, _, _, _, htrees⟩
  refine ⟨q, hq, haccepted.trans (by decide), htrees ['a'] (Nat.le_refl 1)⟩

end Parser

end EarleyForest
