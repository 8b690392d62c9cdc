import EarleyForest.Parser.Rendering
import EarleyForest.Proofs.Forest.Preorder
import EarleyForest.Proofs.Parser.Reordered
import EarleyForest.Proofs.Results

/-!
# Charts and Forests of Other Grammars

Items and labels know rules by their indices, so a parser may be given a chart
or a forest that was made with another grammar. Only a rule that its own
grammar lacks, or a place behind the body of a rule, can leave it without a
text. What it looks at beyond that is the same for all grammars.

For a forest the labels that matter are those of all nodes below the root. A
label is shown in the line of its node, and in the lines of the nodes above it
as well, but no line shows a label that is not below the root. A root without
families has no line at all.

With the grammar that made a chart and its forest nothing is lacking: items are
matches of rules, and the labels of nodes hold.

## Main definitions

* `Grammar.Lacks`: A rule and a place in its body that a grammar does not have.

## Theorems

* `labelText?_eq_none_iff`: The labels without a text.
* `lineText?_eq_none_iff`: The nodes without a line.
* `labelText?_ne_none`, `forestText?_ne_none`: A grammar has what its own
  forests mention.
* `texts_exact`: What has no text.
-/

namespace EarleyForest

variable {T N : Type}

/-- The grammar has no such rule, or the rule's body ends before the dot. -/
def Grammar.Lacks (g : Grammar T N) (rule dot : Nat) : Prop :=
  g.rules.length ≤ rule ∨ ∃ r, g.rules[rule]? = some r ∧ r.body.length < dot

/-- A grammar has the rules that are matched. -/
theorem Grammar.Matched.not_lacks {g : Grammar T N} {input : List T} {rule dot i j : Nat}
    (h : g.Matched input rule dot i j) : ¬ g.Lacks rule dot := by
  rcases h with ⟨r, hr, hdot, _⟩
  rintro (hlength | ⟨r', hr', hlt⟩)
  · exact absurd (List.getElem?_eq_some_iff.mp hr).1 (Nat.not_lt_of_le hlength)
  · cases hr.symm.trans hr'
    exact absurd hdot (Nat.not_le_of_lt hlt)

namespace Parser

variable [DecidableEq N] {q : Parser T N} {f : Forest T N}

theorem dotted?_eq_none_iff {rule dot : Nat} :
    q.dotted? rule dot = none ↔ q.grammar.Lacks rule dot := by
  unfold dotted? Grammar.Lacks
  split
  · rename_i hnone
    simp only [List.getElem?_eq_none_iff.mp hnone, true_or]
  · rename_i r hr
    have hlt := (List.getElem?_eq_some_iff.mp hr).1
    simp only [hr, Option.some.injEq, exists_eq_left', ite_eq_right_iff, reduceCtorEq, imp_false,
      Nat.not_le, Nat.not_le_of_lt hlt, false_or]

/-- The items without a text are those of rules that the grammar lacks. -/
theorem itemText?_eq_none_iff {item : Item} :
    q.itemText? item = none ↔ q.grammar.Lacks item.rule item.dot := by
  rw [itemText?, Option.map_eq_none_iff, dotted?_eq_none_iff]

/-- The labels without a text are those of parts of bodies that the grammar
    lacks. -/
theorem labelText?_eq_none_iff {label : Label T N} :
    q.labelText? label = none ↔
      ∃ rule dot, label = .intermediate rule dot ∧ q.grammar.Lacks rule dot := by
  cases label with
  | terminal t => simp only [labelText?, reduceCtorEq, false_and, exists_false]
  | nonterminal n => simp only [labelText?, reduceCtorEq, false_and, exists_false]
  | intermediate rule dot =>
      rw [labelText?, Option.map_eq_none_iff, dotted?_eq_none_iff]
      constructor
      · exact fun h => ⟨rule, dot, rfl, h⟩
      · rintro ⟨rule', dot', heq, h⟩
        cases heq
        exact h

theorem nodeText?_eq_none_iff {node : Node T N} :
    q.nodeText? node = none ↔ q.labelText? node.label = none := by
  rw [nodeText?, Option.map_eq_none_iff]

/-- Columns have no text if one of their items has none. -/
theorem tableText?_eq_none_iff {columns : List Column} :
    q.tableText? columns = none ↔
      ∃ column ∈ columns, ∃ item ∈ column.items, q.itemText? item = none := by
  have hcolumn : ∀ number column, q.columnText? number column = none ↔
      ∃ item ∈ column.items, q.itemText? item = none := fun number column => by
    rw [columnText?, Option.map_eq_none_iff, mapM_eq_none_iff]
  rw [tableText?, Option.map_eq_none_iff, mapM_eq_none_iff]
  simp only [Prod.exists, hcolumn]
  constructor
  · rintro ⟨column, number, hmem, hitem⟩
    exact ⟨column, List.fst_mem_of_mem_zipIdx hmem, hitem⟩
  · rintro ⟨column, hmem, hitem⟩
    rcases List.getElem?_of_mem hmem with ⟨number, hnumber⟩
    exact ⟨column, number, List.mem_zipIdx_iff_getElem?.mpr hnumber, hitem⟩

theorem familyText?_eq_none_iff {family : Family} : q.familyText? f family = none ↔
    ∃ id ∈ family.children, (f.node? id).bind q.nodeText? = none := by
  cases family with
  | epsilon => simp only [familyText?, Family.children, reduceCtorEq, List.not_mem_nil, false_and,
      exists_false]
  | unary child =>
      rw [familyText?, Option.map_eq_none_iff, mapM_eq_none_iff]
      exact Family.noConfusion
  | binary left right =>
      rw [familyText?, Option.map_eq_none_iff, mapM_eq_none_iff]
      exact Family.noConfusion

/-- A node has no line if its label has no text or that of one of its children
    has none. -/
theorem lineText?_eq_none_iff {node : Node T N} : q.lineText? f node = none ↔
    q.nodeText? node = none ∨ ∃ id ∈ node.children, (f.node? id).bind q.nodeText? = none := by
  have hfamilies : node.families.mapM (q.familyText? f) = none ↔
      ∃ id ∈ node.children, (f.node? id).bind q.nodeText? = none := by
    simp only [mapM_eq_none_iff, familyText?_eq_none_iff, Node.children, List.mem_flatMap]
    constructor
    · rintro ⟨family, hfamily, id, hid, hnone⟩
      exact ⟨id, ⟨family, hfamily, hid⟩, hnone⟩
    · rintro ⟨id, ⟨family, hfamily, hid⟩, hnone⟩
      exact ⟨family, hfamily, id, hid, hnone⟩
  simp only [lineText?, ← hfamilies, Option.bind_eq_bind]
  cases q.nodeText? node with
  | none => simp only [Option.bind_none, true_or]
  | some subject =>
      cases node.families.mapM (q.familyText? f) with
      | none => simp only [Option.bind_some, Option.bind_none, or_true]
      | some alternatives => simp only [Option.bind_some, reduceCtorEq, or_self]

/-- A forest has no text if a node below the root has families and no line. -/
theorem forestText?_eq_none_iff (hvalid : ∀ below above, f.Child below above →
    ∃ node, f.node? below = some node) {root : NodeId} {node : Node T N}
    (hroot : f.node? root = some node) : q.forestText? f (some root) = none ↔
      ∃ id below, Relation.ReflTransGen f.Child id root ∧ f.node? id = some below ∧
        below.families ≠ [] ∧ q.lineText? f below = none := by
  simp only [forestText?, Option.map_eq_none_iff, mapM_eq_none_iff, Option.toList_some,
    List.flatMap_singleton, List.mem_filter, Prod.exists, Forest.mem_preorder_iff hvalid hroot,
    and_assoc, List.isEmpty_iff, decide_not, Bool.not_eq_true', decide_eq_false_iff_not, ne_eq]

/-- The labels that matter for a forest are those of the nodes below the root,
    if the root has a line. -/
theorem forestText?_eq_none_iff_labels {g : Grammar T N} {input : List T}
    (hsound : f.Sound g input) {root : NodeId} {node : Node T N}
    (hroot : f.node? root = some node) : q.forestText? f (some root) = none ↔
      node.families ≠ [] ∧ ∃ id below, Relation.ReflTransGen f.Child id root ∧
        f.node? id = some below ∧ q.nodeText? below = none := by
  rw [forestText?_eq_none_iff (fun _ _ => hsound.exists_node_of_child) hroot]
  constructor
  · rintro ⟨id, below, hreach, hbelow, hfamilies, hline⟩
    constructor
    · -- A root without families has nothing below it but itself.
      intro hnil
      rcases Relation.ReflTransGen.cases_tail hreach with rfl | ⟨child, _, above, habove, hchild⟩
      · cases hbelow.symm.trans hroot
        exact hfamilies hnil
      · cases habove.symm.trans hroot
        rw [Node.children, hnil] at hchild
        exact absurd hchild List.not_mem_nil
    · -- The label without a text is the node's own or that of a child.
      rcases lineText?_eq_none_iff.mp hline with hown | ⟨child, hchild, hnone⟩
      · exact ⟨id, below, hreach, hbelow, hown⟩
      · have hstep : f.Child child id := ⟨below, hbelow, hchild⟩
        rcases hsound.exists_node_of_child hstep with ⟨node', hnode'⟩
        rw [hnode', Option.bind_some] at hnone
        exact ⟨child, node', hreach.head hstep, hnode', hnone⟩
  · rintro ⟨_, id, below, hreach, hbelow, hnone⟩
    refine ⟨id, below, hreach, hbelow, fun hnil => ?_, lineText?_eq_none_iff.mpr (Or.inl hnone)⟩
    -- Leaves have a text.
    rcases (hsound.bare hbelow).mp hnil with ⟨t, ht⟩
    rw [nodeText?_eq_none_iff, ht] at hnone
    cases hnone

/-- The labels of a sound forest mention what the grammar has. -/
theorem labelText?_ne_none {g : Grammar T N} {input : List T} (hsound : f.Sound g input)
    (hq : q.grammar = g) {id : NodeId} {node : Node T N} (hnode : f.node? id = some node) :
    q.labelText? node.label ≠ none := by
  intro hnone
  rcases labelText?_eq_none_iff.mp hnone with ⟨rule, dot, hlabel, hlacks⟩
  have hholds := hsound.holds (Forest.has_of_node? hnode)
  rw [hlabel] at hholds
  exact hholds.2.2.not_lacks (hq ▸ hlacks)

/-- A parser has a text for the forests of its own grammar. -/
theorem forestText?_ne_none {g : Grammar T N} {input : List T} (hsound : f.Sound g input)
    (hq : q.grammar = g) {root : NodeId} {node : Node T N} (hroot : f.node? root = some node) :
    q.forestText? f (some root) ≠ none := by
  intro hnone
  rcases (forestText?_eq_none_iff_labels hsound hroot).mp hnone with ⟨_, _, _, _, hbelow, hnone⟩
  exact labelText?_ne_none hsound hq hbelow (nodeText?_eq_none_iff.mp hnone)

variable [DecidableEq T]

/-- Whatever grammar made a chart and a forest, a parser has no text for the
    items of rules that its own grammar lacks, for columns with such an item,
    and for what is below a root that has families and, somewhere below it, a
    label of such a rule. It has a text for all others, and so for everything
    that its own grammar made. -/
theorem texts_exact (p q : Parser T N) (input : List T) :
    (∀ column ∈ (p.parse input).columns, ∀ item ∈ column.items,
      (q.itemText? item = none ↔ q.grammar.Lacks item.rule item.dot)) ∧
    (∀ slice, slice <:+: (p.parse input).columns →
      (q.tableText? slice = none ↔
        ∃ column ∈ slice, ∃ item ∈ column.items, q.itemText? item = none)) ∧
    (∀ root node, (p.parse input).forest.node? root = some node →
      (q.forestText? (p.parse input).forest (some root) = none ↔
        node.families ≠ [] ∧ ∃ id below rule dot,
          Relation.ReflTransGen (p.parse input).forest.Child id root ∧
          (p.parse input).forest.node? id = some below ∧
          below.label = .intermediate rule dot ∧ q.grammar.Lacks rule dot)) ∧
    (q.grammar = p.grammar →
      (∀ column ∈ (p.parse input).columns, ∀ item ∈ column.items, q.itemText? item ≠ none) ∧
      (∀ slice, slice <:+: (p.parse input).columns → q.tableText? slice ≠ none) ∧
      ∀ root : Option NodeId, (∀ id ∈ root, id < (p.parse input).forest.size) →
        q.forestText? (p.parse input).forest root ≠ none) := by
  have hsound : (p.parse input).forest.Sound p.grammar input := (p.grammar.parse_exact input).sound
  refine ⟨fun _ _ _ _ => itemText?_eq_none_iff, fun _ _ => tableText?_eq_none_iff,
    fun root node hroot => ?_, fun hq => ?_⟩
  · rw [forestText?_eq_none_iff_labels hsound hroot]
    simp only [nodeText?_eq_none_iff, labelText?_eq_none_iff, exists_and_left]
  · have hitems : ∀ column ∈ (p.parse input).columns, ∀ item ∈ column.items,
        q.itemText? item ≠ none := by
      intro column hcolumn item hitem hnone
      rcases List.getElem?_of_mem hcolumn with ⟨j, hj⟩
      have hmatched := (Grammar.contains_columns_iff hj).mp
        (Column.contains_eq_true_iff.mpr ⟨item, hitem, rfl⟩)
      exact hmatched.1.not_lacks (hq ▸ itemText?_eq_none_iff.mp hnone)
    refine ⟨hitems, fun slice hslice hnone => ?_, fun root hroot hnone => ?_⟩
    · rcases tableText?_eq_none_iff.mp hnone with ⟨column, hcolumn, item, hitem, hnone⟩
      exact hitems column (hslice.mem hcolumn) item hitem hnone
    · cases root with
      | none => cases hnone
      | some id =>
          exact forestText?_ne_none hsound hq (Array.getElem?_eq_getElem (hroot id rfl)) hnone

/-- What a grammar with three symbols to a rule makes of the empty input cannot
    be shown with a grammar that has only one. -/
theorem doubled_texts_exact :
    forked.forestText? (doubled.parse []).forest (some 3) = none ∧
      doubled.forestText? (doubled.parse []).forest (some 3) ≠ none := by
  rcases texts_exact doubled forked [] with ⟨_, _, hforeign, _⟩
  rcases texts_exact doubled doubled [] with ⟨_, _, _, hown⟩
  have hroot : (doubled.parse []).forest.node? 3 =
      some ⟨.nonterminal 1, ⟨0, 0⟩, [.binary 1 0, .binary 2 0]⟩ := by decide +kernel
  have hpart : (doubled.parse []).forest.node? 1 =
      some ⟨.intermediate 0 2, ⟨0, 0⟩, [.binary 0 0]⟩ := by decide +kernel
  have hstep : (doubled.parse []).forest.Child 1 3 := ⟨_, hroot, List.mem_cons_self⟩
  refine ⟨(hforeign 3 _ hroot).mpr ⟨List.cons_ne_nil _ _, 1, _, 0, 2, .single hstep, hpart, rfl,
    Or.inr ⟨_, rfl, Nat.lt_succ_self 1⟩⟩, ?_⟩
  exact (hown rfl).2.2 (some 3) fun id hid => by
    cases hid
    decide +kernel

end Parser

end EarleyForest
