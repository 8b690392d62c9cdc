import EarleyForest.Proofs.Chart.Offers
import EarleyForest.Proofs.Parser.Rooted

/-!
# The Nodes of Items

A column knows its items by rule, dot and origin only. That is enough, as these
three tell the node too: an item without a matched symbol has none, and any
other has the one node of its label over what it has matched. So an item that
is offered to a column which has its rule, dot and origin already comes with
the node that is there, and the columns have all items ever offered to them,
apart from those that expect a terminal other than the next one.

## Main definitions

* `Forest.Only`: A node is the only one with its label and span.

## Theorems

* `labelAt?_whole`: The label of a whole body.
* `Item.Found.only`: The node of a found item is the only one of its label.
* `items_determined`: The nodes of items, and what becomes of offers.
-/

namespace EarleyForest

variable {T N : Type}

/-- The nodes with this label and span are this one. -/
def Forest.Only (f : Forest T N) (id : NodeId) (label : Label T N) (span : Span) : Prop :=
  ∀ other, f.Has other label span ↔ other = id

/-- The symbols of a whole body that is not empty have the label of the
    head. -/
theorem Grammar.labelAt?_whole {g : Grammar T N} {rule : Nat} {r : Rule T N}
    (hr : g.rules[rule]? = some r) (hpos : 1 ≤ r.body.length) :
    g.labelAt? rule r.body.length = some (.nonterminal r.head) := by
  rcases Nat.exists_eq_add_of_le' hpos with ⟨last, hlast⟩
  have hs : r.body[last]? = some r.body[last] := List.getElem?_eq_getElem (by omega)
  rw [hlast, labelAt?_succ hr hs, if_neg (by omega), if_pos hlast.symm]

/-- A found item whose match has a label has a node, the only one with that
    label and its span. -/
theorem Item.Found.only {g : Grammar T N} {input : List T} {f : Forest T N} {item : Item}
    {position : Nat} (h : item.Found g input f position) (hsound : f.Sound g input)
    {label : Label T N} (hlabel : g.labelAt? item.rule item.dot = some label) :
    ∃ id, item.node = some id ∧ f.Only id label ⟨item.origin, position⟩ := by
  cases hnode : item.node with
  | none => exact absurd (h.unmade hnode) (Nat.ne_of_gt (Grammar.pos_of_labelAt? hlabel))
  | some id =>
      rcases h.made hnode with ⟨label', hlabel', hhas⟩
      rw [hlabel, Option.some.injEq] at hlabel'
      subst hlabel'
      refine ⟨id, rfl, fun other => ⟨fun hother => hsound.unique hother hhas, ?_⟩⟩
      rintro rfl
      exact hhas

namespace Parser

variable [DecidableEq T] [DecidableEq N]

/-- The node of an item is told by its rule, its dot and its origin. There is
    none if nothing has been matched, and otherwise it is the only node of its
    kind: that of the head if the whole body has been matched, that of the
    first symbol out of several, and that of the rule and the dot in between.

    An item offered to a column which has one of its rule, dot and origin is
    that very item. So a column has the items offered to it, all of them but
    those that expect a terminal which does not come next. -/
theorem items_determined (p : Parser T N) (input : List T) :
    (∀ j c, (p.parse input).columns[j]? = some c → ∀ item ∈ c.items,
      ∃ r, p.grammar.rules[item.rule]? = some r ∧ item.dot ≤ r.body.length ∧
        (item.node = none ↔ item.dot = 0) ∧
        (1 ≤ item.dot → item.dot = r.body.length → ∃ id, item.node = some id ∧
          (p.parse input).forest.Only id (.nonterminal r.head) ⟨item.origin, j⟩) ∧
        (item.dot = 1 → 1 < r.body.length → ∃ s id, r.body[0]? = some s ∧ item.node = some id ∧
          (p.parse input).forest.Only id s.label ⟨item.origin, j⟩) ∧
        (2 ≤ item.dot → item.dot < r.body.length → ∃ id, item.node = some id ∧
          (p.parse input).forest.Only id (.intermediate item.rule item.dot) ⟨item.origin, j⟩)) ∧
    (∀ o ∈ p.grammar.offers input, ∀ stored ∈ o.column.items, stored.key = o.item.key →
      stored.node = o.item.node ∧ stored = o.item) ∧
    ∀ j c, (p.parse input).columns[j]? = some c → ∀ item, item ∈ c.items ↔
      (∃ o ∈ p.grammar.offers input, o.position = j ∧ o.item = item) ∧
        p.grammar.Viable input[j]? item.rule item.dot := by
  rcases Stage.parse_accounts p.grammar input with ⟨s, done, hs, hparse, haccounts⟩
  have hsound := hs.invariant.sound
  rw [parse, hparse]
  refine ⟨fun j c hc item hitem => ?_, fun o ho stored hstored hkey => ?_, fun j c hc item => ?_⟩
  · rcases Stage.columnAt_of_toParse hc with ⟨hj, rfl⟩
    have hfound := hsound.found hj hitem
    rcases hfound.matched with ⟨r, hr, hdot, _⟩
    have honly : ∀ {label : Label T N}, p.grammar.labelAt? item.rule item.dot = some label →
        ∃ id, item.node = some id ∧ s.forest.Only id label ⟨item.origin, j⟩ :=
      fun hlabel => hfound.only hsound.forest.sound hlabel
    refine ⟨r, hr, hdot, hfound.node_eq_none_iff, fun hpos hwhole => honly ?_,
      fun hone hlt => ?_, fun htwo hlt => honly (Grammar.labelAt?_intermediate hr htwo hlt)⟩
    · rw [hwhole] at hpos ⊢
      exact Grammar.labelAt?_whole hr hpos
    · have hfirst : r.body[0]? = some r.body[0] := List.getElem?_eq_getElem (by omega)
      have hlabel := Grammar.labelAt?_one hr hfirst hlt
      rw [← hone] at hlabel
      rcases honly hlabel with ⟨id, hnode, hunique⟩
      exact ⟨_, id, hfirst, hnode, hunique⟩
  · have hsame := haccounts.agree ho hstored hkey
    exact ⟨congrArg Item.node hsame, hsame⟩
  · rcases Stage.columnAt_of_toParse hc with ⟨hj, rfl⟩
    constructor
    · exact fun hitem => ⟨haccounts.offered hj hitem, hsound.viable hj hitem⟩
    · rintro ⟨⟨o, ho, rfl, rfl⟩, hviable⟩
      exact (haccounts.kept ho).2 hviable

/-- The nonterminal that is a rule for itself is matched once more by its own
    match: a complete item is offered to a column that has it. -/
example : ∃ o ∈ looped.grammar.offers ['a'],
    o.item = ⟨0, 1, 0, some 1⟩ ∧ o.item ∈ o.column.items := by decide

end Parser

end EarleyForest
