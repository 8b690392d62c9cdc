import EarleyForest.Parser.Basic
import EarleyForest.Proofs.Chart.Keeping
import EarleyForest.Proofs.Chart.Recording
import EarleyForest.Proofs.Forest.WellFormed

/-!
# What a Parse Gives

The outcome of a parse, said in terms of derivations: which inputs are
accepted and what their root is, which items the columns of the chart have,
and which nodes and families the forest has.

None of it depends on the shape of the grammar. Rules may be empty, may stand
in the grammar twice, and may lead back to their own heads in any way.

## Theorems

* `parse_exact`: The forest of a parse is exact.
* `Settled.root?_eq_some_iff`: The root of a finished parse.
* `accepted_iff_derives`: Acceptance is derivability, and the root is the one
  node for it.
* `columns_exact`: The items of each column.
* `forest_complete`: No derivation step is lost.
* `forest_wellFormed`: Nodes and families fit together.
-/

namespace EarleyForest

variable {T N : Type}

theorem Item.isFinal_eq_true_iff [DecidableEq N] {g : Grammar T N} {item : Item} :
    item.isFinal g = true ↔ ∃ r, g.rules[item.rule]? = some r ∧ r.head = g.start ∧
      item.dot = r.body.length ∧ item.origin = 0 := by
  unfold isFinal
  split
  · rename_i hnone
    rw [hnone]
    exact ⟨(fun h => by cases h), fun ⟨r, hr, _⟩ => by cases hr⟩
  · rename_i r hr
    rw [hr]
    simp only [Bool.and_eq_true, decide_eq_true_eq, Option.some.injEq, exists_eq_left', and_assoc]

namespace Stage

variable [DecidableEq T] [DecidableEq N] {g : Grammar T N} {input : List T} {s : Stage T N}
  {done : List Item}

omit [DecidableEq T] in
/-- The column at a position, found by its position in the chart. -/
theorem columns_toParse [DecidableEq T] (g : Grammar T N) (s : Stage T N) {j : Nat}
    (hj : j ≤ s.front.position) :
    (s.toParse g).columns[j]? = some (s.front.columnAt j) := by
  have hlength : s.front.closed.toList.length = s.front.position := Array.length_toList
  rw [toParse]
  rcases Nat.lt_or_eq_of_le hj with hlt | rfl
  · have hlt' : j < s.front.closed.size := hlt
    rw [Front.columnAt, List.getElem?_append_left (Nat.lt_of_lt_of_eq hlt hlength.symm),
      Array.getElem?_toList, Array.getElem?_eq_getElem hlt', Option.getD_some]
  · rw [Front.columnAt_position, List.getElem?_append_right (Nat.le_of_eq hlength), hlength,
      Nat.sub_self, List.getElem?_cons_zero]

/-- The columns of the chart are those up to the current position. -/
theorem columnAt_of_toParse {j : Nat} {c : Column} (h : (s.toParse g).columns[j]? = some c) :
    j ≤ s.front.position ∧ s.front.columnAt j = c := by
  have hlength : (s.toParse g).columns.length = s.front.position + 1 := by
    rw [toParse, List.length_append, Array.length_toList]
    rfl
  have hj : j ≤ s.front.position := by
    have hlt := (List.getElem?_eq_some_iff.mp h).1
    omega
  rw [s.columns_toParse g hj, Option.some.injEq] at h
  exact ⟨hj, h⟩

/-- A search among the nodes of the open column finds the one node of a label
    and a span that ends there. -/
theorem Sound.find?_eq_some_iff (h : s.Sound g input) {id : NodeId} {label : Label T N}
    {i : Nat} : s.forest.find? s.front.mark label ⟨i, s.front.position⟩ = some id ↔
      s.forest.Has id label ⟨i, s.front.position⟩ := by
  refine ⟨Forest.node?_of_find?, fun hhas => ?_⟩
  cases hfind : s.forest.find? s.front.mark label ⟨i, s.front.position⟩ with
  | none =>
      -- The span ends in the open column, so the node is behind the mark.
      have hmark := (h.forest.marked.behind hhas).mpr rfl
      rcases hhas with ⟨families, hnode⟩
      exact absurd hnode (Forest.find?_eq_none_iff.mp hfind id families hmark)
  | some id' => rw [h.forest.sound.unique (Forest.node?_of_find? hfind) hhas]

namespace Settled

/-- A final item names the start symbol's node over the input, or has no node
    because an empty rule of the start symbol matches the empty input. -/
theorem node_of_isFinal (hs : s.Settled g input done) {item : Item}
    (hitem : item ∈ s.front.column.items) (hfinal : item.isFinal g = true) :
    ∃ id, s.forest.Has id (.nonterminal g.start) ⟨0, input.length⟩ ∧
      (item.node = some id ∨ item.node = none ∧ Rule.epsilon g.start ∈ g.rules ∧ input = []) := by
  rcases Item.isFinal_eq_true_iff.mp hfinal with ⟨r, hr, hhead, hdot, horigin⟩
  rw [← Front.columnAt_position] at hitem
  have hfound := hs.invariant.sound.found (Nat.le_refl _) hitem
  -- The dot is behind the body, so the start symbol derives what is matched.
  have hend : r.body[item.dot]? = none := List.getElem?_eq_none (Nat.le_of_eq hdot.symm)
  have hderives := (hfound.matched.derives hr hend).2
  have hasked := ((Grammar.matched_iff hr).mp hfound.matched).2.1
  rw [hs.position] at hfound
  rw [hs.position, horigin, hhead] at hderives
  rw [horigin, hhead] at hasked
  cases hnode : item.node with
  | some id =>
      rcases hfound.made hnode with ⟨label, hlabel, hhas⟩
      rw [hdot] at hlabel
      rw [Grammar.labelAt?_length hr hlabel, hhead, horigin] at hhas
      exact ⟨id, hhas, Or.inl rfl⟩
  | none =>
      -- An item without a node has matched nothing, so its whole body is empty.
      have hzero := hfound.unmade hnode
      have hnil : r.body = [] := List.eq_nil_of_length_eq_zero (hdot.symm.trans hzero)
      have hempty := hfound.origin_eq hzero
      rw [horigin] at hempty
      have hrule : Rule.epsilon g.start ∈ g.rules := by
        rw [← hhead, Rule.epsilon, ← hnil]
        exact List.mem_of_getElem? hr
      have hholds : (Label.nonterminal g.start : Label T N).Holds g input ⟨0, input.length⟩ :=
        ⟨hasked, hderives⟩
      rcases hs.exact.has hholds with ⟨id, hhas⟩
      exact ⟨id, hhas, Or.inr ⟨rfl, hrule, List.eq_nil_of_length_eq_zero hempty.symm⟩⟩

/-- A final item is there if the start symbol derives the input. -/
theorem exists_isFinal (hs : s.Settled g input done)
    (hderives : g.Derives input [.nonterminal g.start] 0 input.length) :
    ∃ item ∈ s.front.column.items, item.isFinal g = true := by
  rcases Grammar.derives_nonterminal_iff.mp hderives with ⟨r, hrule, hhead, hbody⟩
  rcases List.getElem?_of_mem hrule with ⟨rule, hr⟩
  -- The last step of the derivation is by a rule that is matched as a whole.
  have hmatched : g.Matched input rule r.body.length 0 input.length := by
    refine (Grammar.matched_iff hr).mpr ⟨Nat.le_refl _, ?_, ?_⟩
    · rw [hhead]
      exact .start
    · rwa [List.take_length]
  have hviable : g.Viable input[input.length]? rule r.body.length := by
    rw [Grammar.viable_iff, Grammar.symbolAt?_of_rule hr]
    exact Or.inl (List.getElem?_eq_none (Nat.le_refl _))
  rcases (takes_of_matched hs hmatched).item hviable with ⟨item, hitem, rfl, hdot, horigin⟩
  rw [← hs.position, Front.columnAt_position] at hitem
  exact ⟨item, hitem, Item.isFinal_eq_true_iff.mpr ⟨r, hr, hhead, hdot, horigin⟩⟩

/-- The root is the start symbol's node over the input, if there is one. -/
theorem root?_eq_some_iff (hs : s.Settled g input done) {id : NodeId} :
    s.root? g = some id ↔ s.forest.Has id (.nonterminal g.start) ⟨0, input.length⟩ := by
  have hsound := hs.invariant.sound
  -- Whichever final item comes first, it leads to the one node there is.
  have hnode : ∀ item ∈ s.front.column.items, item.isFinal g = true → ∃ id',
      s.forest.Has id' (.nonterminal g.start) ⟨0, input.length⟩ ∧
      item.node.or (s.forest.find? s.front.mark (.nonterminal g.start) ⟨0, s.front.position⟩) =
        some id' := by
    intro item hitem hfinal
    rcases hs.node_of_isFinal hitem hfinal with ⟨id', hhas, hsome | ⟨hnone, _⟩⟩
    · exact ⟨id', hhas, by rw [hsome, Option.some_or]⟩
    · refine ⟨id', hhas, ?_⟩
      rw [hnone, Option.none_or, hsound.find?_eq_some_iff, hs.position]
      exact hhas
  constructor
  · intro hroot
    rcases Option.bind_eq_some_iff.mp hroot with ⟨item, hfind, hitem⟩
    rcases hnode item (List.mem_of_find?_eq_some hfind) (List.find?_some hfind) with
      ⟨id', hhas, hor⟩
    rw [hor, Option.some.injEq] at hitem
    rwa [← hitem]
  · intro hhas
    rcases hs.exists_isFinal (hsound.forest.sound.holds hhas).2 with ⟨item, hitem, hfinal⟩
    have hfind : (s.front.column.items.find? (Item.isFinal g)).isSome = true :=
      List.find?_isSome.mpr ⟨item, hitem, hfinal⟩
    rcases Option.isSome_iff_exists.mp hfind with ⟨first, hfirst⟩
    rcases hnode first (List.mem_of_find?_eq_some hfirst) (List.find?_some hfirst) with
      ⟨id', hhas', hor⟩
    rw [root?, hfirst, Option.bind_some, hor, hsound.forest.sound.unique hhas' hhas]

end Settled

end Stage

variable [DecidableEq T] [DecidableEq N]

/-- The forest of a parse is exact. -/
theorem Grammar.parse_exact (g : Grammar T N) (input : List T) :
    (g.parse input).forest.Exact g input := by
  rcases Stage.parse_settled g input with ⟨s, done, hs, hparse⟩
  rw [hparse]
  exact hs.exact

/-- The root of a parse is the start symbol's node over the input. -/
theorem Grammar.parse_root_eq_some_iff (g : Grammar T N) (input : List T) (id : NodeId) :
    (g.parse input).root = some id ↔
      (g.parse input).forest.Has id (.nonterminal g.start) ⟨0, input.length⟩ := by
  rcases Stage.parse_settled g input with ⟨s, done, hs, hparse⟩
  rw [hparse]
  exact hs.root?_eq_some_iff

namespace Parser

/-- An input is accepted if and only if the start symbol derives it. The root
    is then the one node of the start symbol over the input, and every final
    item of the last column names it, unless it is the item of an empty rule
    on the empty input, which has no node. -/
theorem accepted_iff_derives (p : Parser T N) (input : List T) :
    ((p.parse input).accepted = true ↔
      p.grammar.Derives input [.nonterminal p.grammar.start] 0 input.length) ∧
    (∀ id, (p.parse input).root = some id ↔
      (p.parse input).forest.Has id (.nonterminal p.grammar.start) ⟨0, input.length⟩) ∧
    ∃ last, (p.parse input).columns.getLast? = some last ∧
      ∀ item ∈ last.items, item.isFinal p.grammar = true →
        (p.parse input).accepted = true ∧
        (item.node = (p.parse input).root ∨
          item.node = none ∧ Rule.epsilon p.grammar.start ∈ p.grammar.rules ∧ input = []) := by
  rcases Stage.parse_settled p.grammar input with ⟨s, done, hs, hparse⟩
  have hroot : ∀ id, (s.toParse p.grammar).root = some id ↔
      s.forest.Has id (.nonterminal p.grammar.start) ⟨0, input.length⟩ :=
    fun id => hs.root?_eq_some_iff
  rw [parse, hparse]
  refine ⟨?_, hroot, s.front.column, List.getLast?_concat, ?_⟩
  · rw [Parse.accepted, Option.isSome_iff_exists]
    constructor
    · rintro ⟨id, hid⟩
      exact (hs.exact.sound.holds ((hroot id).mp hid)).2
    · intro hderives
      have hholds : (Label.nonterminal p.grammar.start : Label T N).Holds p.grammar input
          ⟨0, input.length⟩ := ⟨.start, hderives⟩
      rcases hs.exact.has hholds with ⟨id, hhas⟩
      exact ⟨id, (hroot id).mpr hhas⟩
  · intro item hitem hfinal
    rcases hs.node_of_isFinal hitem hfinal with ⟨id, hhas, hnode⟩
    have hid := (hroot id).mpr hhas
    refine ⟨by rw [Parse.accepted, hid, Option.isSome_some], ?_⟩
    rw [hid]
    exact hnode

/-- There is a column for each position, and the column at a position has the
    items of the matches that end there, each once, except those that expect
    a terminal other than the next one. -/
theorem columns_exact (p : Parser T N) (input : List T) :
    (p.parse input).columns.length = input.length + 1 ∧
    ∀ j ≤ input.length, ∃ c, (p.parse input).columns[j]? = some c ∧
      (c.items.map Item.key).Nodup ∧
      ∀ rule dot origin, c.contains rule dot origin = true ↔
        ∃ r, p.grammar.rules[rule]? = some r ∧ dot ≤ r.body.length ∧
          p.grammar.Reaches input r.head origin ∧
          p.grammar.Derives input (r.body.take dot) origin j ∧
          (dot = r.body.length ∨ (∃ n, r.body[dot]? = some (.nonterminal n)) ∨
            ∃ t, r.body[dot]? = some (.terminal t) ∧ input[j]? = some t) := by
  rcases Stage.parse_settled p.grammar input with ⟨s, done, hs, hparse⟩
  rw [parse, hparse]
  constructor
  · rw [← hs.position, Stage.toParse, List.length_append, Array.length_toList]
    rfl
  · intro j hj
    have hj' : j ≤ s.front.position := by rwa [hs.position]
    refine ⟨s.front.columnAt j, s.columns_toParse p.grammar hj',
      hs.invariant.sound.distinct hj', fun rule dot origin => ?_⟩
    rw [hs.contains_iff hj]
    constructor
    · rintro ⟨⟨r, hr, hdot, hasked, hderives⟩, hviable⟩
      rw [Grammar.viable_iff, Grammar.symbolAt?_of_rule hr] at hviable
      refine ⟨r, hr, hdot, hasked, hderives, hviable.imp_left fun hend => ?_⟩
      exact Nat.le_antisymm hdot (List.getElem?_eq_none_iff.mp hend)
    · rintro ⟨r, hr, hdot, hasked, hderives, hnext⟩
      refine ⟨⟨r, hr, hdot, hasked, hderives⟩, ?_⟩
      rw [Grammar.viable_iff, Grammar.symbolAt?_of_rule hr]
      exact hnext.imp_left fun hwhole => List.getElem?_eq_none (Nat.le_of_eq hwhole.symm)

/-- The forest of a parse loses no derivation step. -/
theorem forest_complete (p : Parser T N) (input : List T) :
    (p.parse input).forest.Complete p.grammar input :=
  (p.grammar.parse_exact input).complete

/-- The nodes and families of a parse fit together, and its nodes are numbered
    in the order in which their spans end. -/
theorem forest_wellFormed (p : Parser T N) (input : List T) :
    (p.parse input).forest.WellFormed p.grammar input ∧ (p.parse input).forest.Ascends :=
  ⟨(p.grammar.parse_exact input).wellFormed, p.grammar.parse_ascends input⟩

end Parser

end EarleyForest
