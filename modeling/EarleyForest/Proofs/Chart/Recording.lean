import EarleyForest.Proofs.Chart.Completeness
import EarleyForest.Proofs.Forest.Exactness

/-!
# Steps on Record

The forest that a parse ends with is exact.

Nodes are found through the items of the chart. A node for the first symbols
of a rule, and each of its families, is on record because the item for all of
these symbols but the last has moved on over the last one. That item is in the
chart even if the one that it becomes is not, since what it expects does come
next.

## Theorems

* `Settled.recorded`: Every step of a match is on record.
* `Settled.exact`: The forest of a finished parse is exact.
-/

namespace EarleyForest

variable {T N : Type} {g : Grammar T N} {input : List T}

namespace Stage

/-- A symbol that derives what comes next is viable. -/
theorem viable_of_derives {rule dot k j : Nat} {symbol : Symbol T N}
    (hs : g.symbolAt? rule dot = some symbol) (hderives : g.Derives input [symbol] k j) :
    g.Viable input[k]? rule dot := by
  intro t ht
  rw [hs, Option.some.injEq] at ht
  subst ht
  exact (Grammar.derives_terminal_iff.mp hderives).1

variable [DecidableEq T] [DecidableEq N] {s : Stage T N} {done : List Item}

namespace Settled

/-- Every step of a match over a symbol that derives what comes next is on
    record. -/
theorem recorded (hs : s.Settled g input done) {rule dot i k j : Nat} {symbol : Symbol T N}
    (hmatched : g.Matched input rule dot i k) (hsymbol : g.symbolAt? rule dot = some symbol)
    (hderives : g.Derives input [symbol] k j) :
    ∃ (item : Item) (v : NodeId), item.rule = rule ∧ item.dot = dot ∧ item.origin = i ∧
      item.Found g input s.forest k ∧ s.forest.Has v symbol.label ⟨k, j⟩ ∧
      s.forest.Records g item v j := by
  have hk := hmatched.le_length
  rcases (takes_of_matched hs hmatched).item (viable_of_derives hsymbol hderives) with
    ⟨item, hitem, rfl, rfl, rfl⟩
  rcases hs.advances hk hitem hsymbol hderives with ⟨v, hhas, _, hrecord⟩
  rw [← hs.position] at hk
  exact ⟨item, v, rfl, rfl, rfl, hs.invariant.sound.found hk hitem, hhas, hrecord⟩

/-- What holds has a node. -/
theorem has_of_holds (hs : s.Settled g input done) {label : Label T N} {span : Span}
    (h : label.Holds g input span) : ∃ id, s.forest.Has id label span := by
  rcases span with ⟨i, j⟩
  cases label with
  | terminal t =>
      rcases h with ⟨ht, rfl⟩
      have hi := (List.getElem?_eq_some_iff.mp ht).1
      rw [← hs.position] at hi
      exact hs.invariant.worked.leaves hi ht
  | nonterminal n =>
      rcases h with ⟨hasked, hderives⟩
      have hj : j ≤ input.length := hderives.le_length hasked.le_length
      rcases Grammar.derives_nonterminal_iff.mp hderives with ⟨r, hrule, rfl, hbody⟩
      rcases List.getElem?_of_mem hrule with ⟨rule, hr⟩
      -- A rule of the nonterminal is matched as a whole, and its complete item
      -- has the node.
      rw [← List.take_length (l := r.body)] at hbody
      have htakes := takes_of_matched hs ⟨r, hr, Nat.le_refl _, hasked, hbody⟩
      rcases hs.completed hj hr htakes with ⟨v, hhas, _⟩
      exact ⟨v, hhas⟩
  | intermediate rule dot =>
      rcases h with ⟨hdot, ⟨r, hr, hlt⟩, hwhole⟩
      rcases (Grammar.matched_iff hr).mp hwhole with ⟨_, hasked, hderives⟩
      -- The node is on record for the step over the last of the symbols.
      rcases Nat.exists_eq_add_of_le' hdot with ⟨d, rfl⟩
      have hsymbol : r.body[d + 1]? = some r.body[d + 1] := List.getElem?_eq_getElem (by omega)
      rcases (Grammar.derives_take_succ_iff hsymbol).mp hderives with ⟨k, hfirst, hlast⟩
      have hmatched : g.Matched input rule (d + 1) i k := ⟨r, hr, by omega, hasked, hfirst⟩
      rcases hs.recorded hmatched ((Grammar.symbolAt?_of_rule hr _).trans hsymbol) hlast with
        ⟨item, v, rfl, hdot', rfl, _, _, hrecord⟩
      rcases hrecord r hr (by omega) with ⟨id, label, hlabel, hlists⟩
      rw [hdot', Grammar.labelAt?_intermediate hr hdot hlt, Option.some.injEq] at hlabel
      rw [← hlabel] at hlists
      exact ⟨id, hlists.has⟩

/-- A node lists every way to derive it. -/
theorem lists_of_way (hs : s.Settled g input done) {id : NodeId} {label : Label T N}
    {span : Span} {family : Family} (hhas : s.forest.Has id label span)
    (hway : s.forest.Way g label span family) : s.forest.Lists id label span family := by
  have hsound := hs.invariant.sound.forest.sound
  have hholds := hsound.holds hhas
  -- It is enough that some node with this label and span lists the family.
  suffices hsome : ∃ id', s.forest.Lists id' label span family by
    rcases hsome with ⟨id', hlists⟩
    rwa [hsound.unique hhas hlists.has]
  cases hway with
  | @epsilon n i hrule =>
      rcases List.getElem?_of_mem hrule with ⟨rule, hr⟩
      have hi := hholds.1.le_length
      -- The item of an empty rule is complete at once.
      have htakes := takes_of_matched hs ⟨_, hr, Nat.le_refl 0, hholds.1, .nil i⟩
      rcases hs.completed hi hr htakes with ⟨v, _, hempty, _⟩
      exact ⟨v, hempty rfl⟩
  | @unary n symbol span child hrule hbelow =>
      rcases List.getElem?_of_mem hrule with ⟨rule, hr⟩
      have hderives := Symbol.derives_of_label_holds (hsound.holds hbelow)
      -- The step is the one over the only symbol of a rule, from an item that
      -- has no node yet.
      have hmatched : g.Matched input rule 0 span.start span.start :=
        ⟨_, hr, Nat.zero_le _, hholds.1, .nil _⟩
      rcases hs.recorded hmatched (Grammar.symbolAt?_of_rule hr 0) hderives with
        ⟨item, v, rfl, hdot, horigin, hfound, hv, hrecord⟩
      rcases hrecord _ hr (fun h => absurd h.2 (Nat.lt_irrefl 1)) with
        ⟨id', label, hlabel, hlists⟩
      have hnode := hfound.node_eq_none_iff.mpr hdot
      have hwhole : g.labelAt? item.rule (0 + 1) = some (.nonterminal n) :=
        Grammar.labelAt?_succ hr rfl
      rw [hdot, hwhole, Option.some.injEq] at hlabel
      rw [← hlabel, horigin, Item.family, hnode, hsound.unique hv hbelow] at hlists
      exact ⟨id', hlists⟩
  | @binary rule dot i k j before after symbol left right hbefore hsymbol hafter hleft hright =>
      -- The step is from an item that has a node, and that is the left child.
      have hmatched := Grammar.matched_of_labels hbefore hafter (hsound.holds hleft) hholds
      rcases hs.recorded hmatched hsymbol (Symbol.derives_of_label_holds (hsound.holds hright)) with
        ⟨item, v, rfl, rfl, rfl, hfound, hv, hrecord⟩
      rcases hmatched with ⟨r, hr, _⟩
      have hpos : item.dot ≠ 0 := by
        intro hzero
        rw [hzero, Grammar.labelAt?_zero] at hbefore
        cases hbefore
      rcases hrecord r hr (fun h => hpos h.1) with ⟨id', label, hlabel, hlists⟩
      cases hnode : item.node with
      | none => exact absurd (hfound.unmade hnode) hpos
      | some first =>
          rcases hfound.made hnode with ⟨before', hbefore', hfirst⟩
          rw [hbefore, Option.some.injEq] at hbefore'
          rw [← hbefore'] at hfirst
          rw [hafter, Option.some.injEq] at hlabel
          rw [← hlabel, Item.family, hnode, hsound.unique hfirst hleft,
            hsound.unique hv hright] at hlists
          exact ⟨id', hlists⟩

/-- The forest of a finished parse is exact. -/
theorem exact (hs : s.Settled g input done) : s.forest.Exact g input where
  sound := hs.invariant.sound.forest.sound
  has := hs.has_of_holds
  lists := hs.lists_of_way

end Settled

end Stage

end EarleyForest
