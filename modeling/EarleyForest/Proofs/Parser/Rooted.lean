import EarleyForest.Proofs.Enumeration.Least
import EarleyForest.Proofs.Enumeration.Repetition
import EarleyForest.Proofs.Enumeration.Sequence
import EarleyForest.Proofs.Parser.Outcome
import EarleyForest.Proofs.Tree.Subtrees

/-!
# Trees from Any Root

An enumeration may start at any node of a parse that is no part of a rule's
body, and the tokens may be any that reach as far as the node does. Whatever
cycles there are below the node, at least one tree comes, and all that come
are derivations of what the node says.

## Theorems

* `exists_given?`: Something is given from every node.
* `shows_of_given?`: The trees given show what the root says.
* `trees_proper`: The trees of a node are derivations over its span.
* `exists_tree`: There is a tree for every accepted input and every node.
-/

namespace EarleyForest

variable {T N Tok : Type}

/-- A node that is no part of a rule's body stands for a symbol. -/
theorem Forest.has_symbol_of_node? {f : Forest T N} {id : NodeId} {node : Node T N}
    (hnode : f.node? id = some node) (hlabel : node.label.isIntermediate = false) :
    ∃ s : Symbol T N, node.label = s.label ∧ f.Has id s.label node.span := by
  have hhas := has_of_node? hnode
  rcases node.label.symbol_or_intermediate with ⟨s, hs⟩ | ⟨rule, dot, hpart⟩
  · rw [hs] at hhas
    exact ⟨s, hs, hhas⟩
  · rw [hpart] at hlabel
    cases hlabel

/-- A terminal is shown by a leaf. -/
theorem Tree.Shows.leaf_of_terminal {g : Grammar T N} {input : List T} {tokens : List Tok}
    {tree : Tree N Tok} {t : T} {i j : Nat} (h : tree.Shows g input tokens (.terminal t) i j) :
    ∃ token, tree = .leaf token ⟨i, j⟩ := by
  cases h with
  | leaf here carried => exact ⟨_, rfl⟩

namespace Enumeration

variable {g : Grammar T N} {input : List T} {tokens : List Tok} {f : Forest T N}

/-- The trees given by an enumeration from a symbol's node are among those
    that nested loops list, and show what the node says. -/
theorem shows_of_given? (hsound : f.Sound g input) {id : NodeId} {s : Symbol T N} {i j : Nat}
    (hhas : f.Has id s.label ⟨i, j⟩) {e : Enumeration T N Tok (Tree N Tok)}
    (hyields : e.Yields (nested f tokens Builder.tree [] id).flatten) {count : Nat}
    {tree : Tree N Tok} (hgiven : e.given? count = some tree) :
    [tree] ∈ nested f tokens Builder.tree [] id ∧ tree.Shows g input tokens s i j := by
  rw [given?_of_yields hyields] at hgiven
  rcases List.mem_flatten.mp (List.mem_of_getElem? hgiven) with ⟨trees, hmem, htree⟩
  -- A symbol has one tree.
  rcases (Forest.shown_symbol_iff hhas).mp (shown_of_mem_nested hsound hmem) with
    ⟨only, rfl, hshows⟩
  rw [List.mem_singleton.mp htree]
  exact ⟨hmem, hshows⟩

/-- A derivation of a node that is no part of a rule's body makes one thing. -/
theorem length_of_mem_nested {Out : Type} {builder : Builder T N Tok Out} {id : NodeId}
    {node : Node T N} (hnode : f.node? id = some node) (hlabel : node.label.isIntermediate = false)
    {outs : List Out} (h : outs ∈ nested f tokens builder [] id) : outs.length = 1 := by
  cases hcase : node.label with
  | terminal t =>
      rw [nested_leaf hnode hcase] at h
      rcases List.mem_map.mp h with ⟨token, _, rfl⟩
      rfl
  | nonterminal n =>
      have hinner : ∀ t, node.label ≠ .terminal t := fun t ht => by cases hcase.symm.trans ht
      rcases exists_family_of_mem_nested hnode hinner List.not_mem_nil h with
        ⟨family, _, below, _, rfl⟩
      simp only [assemble, hcase]
      split <;> rfl
  | intermediate rule dot =>
      rw [hcase] at hlabel
      cases hlabel

/-- From a node that is no part of a rule's body an enumeration of an exact
    forest gives something at once. -/
theorem exists_given? [DecidableEq T] [DecidableEq N] {Out : Type} (hexact : f.Exact g input)
    {id : NodeId} {node : Node T N} (hnode : f.node? id = some node)
    (hlabel : node.label.isIntermediate = false) (htokens : node.span.stop ≤ tokens.length)
    (builder : Builder T N Tok Out) :
    ∃ e out, ofRoot f (some id) tokens builder = .ok e ∧ e.next.1.built? = some out := by
  have hhas := Forest.has_of_node? hnode
  rcases yields_nested hexact.sound hhas hlabel htokens builder with ⟨e, he, hyields⟩
  rcases List.exists_mem_of_ne_nil _ (nested_ne_nil hexact builder hhas htokens) with ⟨outs, houts⟩
  rcases List.length_eq_one_iff.mp (length_of_mem_nested hnode hlabel houts) with ⟨out, rfl⟩
  have hmem := List.mem_flatten.mpr ⟨_, houts, List.mem_singleton_self out⟩
  generalize (nested f tokens builder [] id).flatten = given at hyields hmem
  cases hyields with
  | nil built sane => exact absurd hmem List.not_mem_nil
  | cons built later => exact ⟨e, _, he, built⟩

end Enumeration

variable [DecidableEq T] [DecidableEq N]

namespace Parser

/-- The trees that come from a node of a parse are derivations over its span:
    each carries the label of the node, each of its subtrees is what a
    derivation asks for, and its leaves are the tokens in the span. -/
theorem trees_proper (p : Parser T N) (input : List T) (tokens : List Tok) {id : NodeId}
    {node : Node T N} (hnode : (p.parse input).forest.node? id = some node)
    (hlabel : node.label.isIntermediate = false) (htokens : node.span.stop ≤ tokens.length) :
    ∃ e, Enumeration.ofRoot (p.parse input).forest (some id) tokens Builder.tree = .ok e ∧
      ∀ count tree, e.given? count = some tree →
        tree.span = node.span ∧
        (∀ t, node.label = .terminal t → ∃ token, tree = .leaf token node.span) ∧
        (∀ n, node.label = .nonterminal n → tree.label? = some n) ∧
        (∀ sub ∈ tree.subtrees, sub.Proper p.grammar input tokens) ∧
        tree.leaves = tokens.extract node.span.start node.span.stop ∧
        ∀ spell, tree.source spell =
          sentence ((tokens.extract node.span.start node.span.stop).map spell) := by
  have hsound := (p.grammar.parse_exact input).sound
  rcases Forest.has_symbol_of_node? hnode hlabel with ⟨s, hs, hhas⟩
  rcases Enumeration.yields_nested hsound (Forest.has_of_node? hnode) hlabel htokens Builder.tree
    with ⟨e, he, hyields⟩
  refine ⟨e, he, fun count tree hgiven => ?_⟩
  have hshows := (Enumeration.shows_of_given? hsound hhas hyields hgiven).2
  refine ⟨hshows.span_eq, fun t ht => ?_, fun n hn => ?_, fun sub hsub => ?_, hshows.leaves_eq,
    fun spell => by rw [Tree.source, hshows.leaves_eq]⟩
  · -- The label tells the symbol, and only a leaf shows a terminal.
    rw [hs] at ht
    cases s with
    | terminal t' => exact hshows.leaf_of_terminal
    | nonterminal n => cases ht
  · rw [hshows.label?_eq]
    rw [hs] at hn
    cases s with
    | terminal t => cases hn
    | nonterminal n' =>
        cases hn
        rfl
  · rcases hshows.of_below (Tree.mem_subtrees_iff.mp hsub) with ⟨s', k, l, hbelow⟩
    exact hbelow.proper

/-- A nonterminal that is also a rule for itself. -/
def looped : Parser Char Nat where
  grammar := ⟨0, [⟨0, [.nonterminal 0]⟩, ⟨0, [.terminal 'a']⟩]⟩
  spelling := ⟨String.singleton, Nat.repr⟩
  valid := by decide

/-- Over one letter its node lists itself as a child. -/
theorem looped_node_one : (looped.parse ['a']).forest.node? 1 =
    some ⟨.nonterminal 0, ⟨0, 1⟩, [.unary 0, .unary 1]⟩ := by decide

theorem looped_node_zero : (looped.parse ['a']).forest.node? 0 =
    some ⟨.terminal 'a', ⟨0, 1⟩, []⟩ := by decide

/-- The tokens need not be the letters parsed, and there may be more of
    them. -/
theorem looped_trees_proper :
    ∃ e : Enumeration Char Nat String (Tree Nat String),
      Enumeration.ofRoot (looped.parse ['a']).forest (some 1) ["x", "y"] Builder.tree = .ok e ∧
      ∀ count tree, e.given? count = some tree → tree.leaves = ["x"] := by
  rcases trees_proper looped ['a'] ["x", "y"] looped_node_one rfl (Nat.le_succ 1) with
    ⟨e, he, htrees⟩
  refine ⟨e, he, fun count tree hgiven => ?_⟩
  rcases htrees count tree hgiven with ⟨_, _, _, _, hleaves, _⟩
  exact hleaves

/-- An input is accepted if and only if the enumeration from its root gives
    something. From any node of the parse the first thing comes at once: it is
    built by the last of the attempts made for it, and those before have run
    into cycles. -/
theorem exists_tree {Out : Type} (p : Parser T N) (input : List T) (tokens : List Tok)
    (builder : Builder T N Tok Out) :
    (input.length ≤ tokens.length →
      ∃ e, Enumeration.ofRoot (p.parse input).forest (p.parse input).root tokens builder = .ok e ∧
        ((p.parse input).accepted = true ↔ ∃ count out, e.given? count = some out)) ∧
    ∀ id node, (p.parse input).forest.node? id = some node →
      node.label.isIntermediate = false → node.span.stop ≤ tokens.length →
      ∃ e, Enumeration.ofRoot (p.parse input).forest (some id) tokens builder = .ok e ∧
        ∃ pruned last out, e.next.1.attempts = pruned ++ [last] ∧
          (∀ tried ∈ pruned, tried.ending = .halted .cycle) ∧
          last.ending = .built out ∧ e.next.1.built? = some out := by
  have hexact : (p.parse input).forest.Exact p.grammar input := p.grammar.parse_exact input
  refine ⟨fun htokens => ?_, fun id node hnode hlabel htokens => ?_⟩
  · rw [Parse.accepted]
    cases hroot : (p.parse input).root with
    | none =>
        refine ⟨_, rfl, fun h => (by cases h), ?_⟩
        rintro ⟨count, out, hgiven⟩
        rw [Enumeration.given?_of_upcoming rfl] at hgiven
        cases hgiven
    | some id =>
        rcases (p.grammar.parse_root_eq_some_iff input id).mp hroot with ⟨families, hnode⟩
        rcases Enumeration.exists_given? hexact hnode rfl htokens builder with ⟨e, out, he, hbuilt⟩
        exact ⟨e, he, fun _ => ⟨0, out, hbuilt⟩, fun _ => rfl⟩
  · rcases Enumeration.exists_given? hexact hnode hlabel htokens builder with ⟨e, out, he, hbuilt⟩
    rcases Enumeration.attempts_of_built? hbuilt with ⟨pruned, last, hattempts, hpruned, hlast⟩
    exact ⟨e, he, pruned, last, out, hattempts, hpruned, hlast, hbuilt⟩

/-- A node that lists itself as its child has a tree, and so does the input. -/
theorem looped_exists_tree :
    (looped.parse ['a']).accepted = true ∧ ∃ e : Enumeration Char Nat Char (Tree Nat Char),
      Enumeration.ofRoot (looped.parse ['a']).forest (some 1) ['a'] Builder.tree = .ok e ∧
      ∃ tree, e.given? 0 = some tree := by
  rcases exists_tree looped ['a'] ['a'] Builder.tree with ⟨hroot, hnodes⟩
  have hid : (looped.parse ['a']).root = some 1 := by decide
  rcases hnodes 1 _ looped_node_one rfl (Nat.le_refl 1) with ⟨e, he, _, _, tree, _, _, _, hbuilt⟩
  rcases hroot (Nat.le_refl 1) with ⟨e', he', haccepted⟩
  rw [hid, he, Except.ok.injEq] at he'
  subst he'
  exact ⟨haccepted.mpr ⟨0, tree, hbuilt⟩, e, he, tree, hbuilt⟩

end Parser

end EarleyForest
