import Mathlib.Data.List.Basic
import EarleyForest.Proofs.Forest.Exactness

/-!
# Well-Formed Forests

How the nodes and families of an exact forest fit together, said about the
nodes alone and without any derivation. Leaves stand for the terminals of the
input, one for each position. Every other node lists at least one family, and
a family tells by its shape which rule it belongs to and which part of the
rule's body its children stand for.

Rules of three symbols or more are taken apart from the right. The last symbol
is split off a whole body, which is labelled with its head; then one symbol at
a time is split off a part of the body, which is labelled with the rule and
the dot; and the last two symbols left are the children of one node.

## Main definitions

* `Grammar.Splits`: A label is split into the labels of two children.
* `Family.Suits`: A family fits its node and its children.
* `Forest.WellFormed`: The nodes and families of a forest fit together.

## Theorems

* `splits_of_labels`: One symbol is split off a match.
* `Way.suits`: A way to derive a node fits the node.
* `Exact.wellFormed`: An exact forest is well-formed.
-/

namespace EarleyForest

variable {T N : Type}

/-- A label is split into the labels of two children, the second of which is
    that of the last symbol. -/
inductive Grammar.Splits (g : Grammar T N) : Label T N → Label T N → Label T N → Prop where
  /-- A whole body of two symbols. -/
  | pair {n : N} {x y : Symbol T N} (rule : ⟨n, [x, y]⟩ ∈ g.rules) :
      Splits g (.nonterminal n) x.label y.label
  /-- A whole body of three symbols or more. -/
  | whole {rule : Nat} {r : Rule T N} {s : Symbol T N} (hr : g.rules[rule]? = some r)
      (long : 3 ≤ r.body.length) (last : r.body.getLast? = some s) :
      Splits g (.nonterminal r.head) (.intermediate rule (r.body.length - 1)) s.label
  /-- The first two symbols of a longer body. -/
  | start {rule : Nat} {r : Rule T N} {x y : Symbol T N} (hr : g.rules[rule]? = some r)
      (long : 3 ≤ r.body.length) (first : r.body[0]? = some x) (second : r.body[1]? = some y) :
      Splits g (.intermediate rule 2) x.label y.label
  /-- Three symbols or more of a longer body. -/
  | part {rule dot : Nat} {r : Rule T N} {s : Symbol T N} (hr : g.rules[rule]? = some r)
      (two : 2 ≤ dot) (long : dot + 1 < r.body.length) (last : r.body[dot]? = some s) :
      Splits g (.intermediate rule (dot + 1)) (.intermediate rule dot) s.label

/-- A family fits its node and its children: there is a rule for it, its
    children are nodes of the forest, and they have the labels and cover the
    spans that the rule asks for. -/
def Family.Suits (g : Grammar T N) (f : Forest T N) (node : Node T N) : Family → Prop
  | .epsilon => ∃ n, node.label = .nonterminal n ∧ node.span.start = node.span.stop ∧
    Rule.epsilon n ∈ g.rules
  | .unary child => ∃ n s below, f.node? child = some below ∧ node.label = .nonterminal n ∧
    ⟨n, [s]⟩ ∈ g.rules ∧ below.label = s.label ∧ below.span = node.span
  | .binary left right => ∃ before behind, f.node? left = some before ∧
    f.node? right = some behind ∧ before.span.start = node.span.start ∧
    before.span.stop = behind.span.start ∧ behind.span.stop = node.span.stop ∧
    g.Splits node.label before.label behind.label

/-- The nodes and families of a forest fit together. -/
structure Forest.WellFormed (g : Grammar T N) (input : List T) (f : Forest T N) : Prop where
  /-- No two nodes share their label and their span. -/
  unique {id id' : NodeId} {node node' : Node T N} : f.node? id = some node →
    f.node? id' = some node' → node.label = node'.label → node.span = node'.span → id = id'
  /-- Spans lie within the input. -/
  within {id : NodeId} {node : Node T N} : f.node? id = some node →
    node.span.start ≤ node.span.stop ∧ node.span.stop ≤ input.length
  /-- Each position has one leaf, for the terminal there. -/
  leaf {position : Nat} {t : T} : input[position]? = some t →
    ∃! id, f.node? id = some ⟨.terminal t, ⟨position, position + 1⟩, []⟩
  /-- There are no leaves but those. -/
  terminal {id : NodeId} {node : Node T N} {t : T} : f.node? id = some node →
    node.label = .terminal t → ∃ position, input[position]? = some t ∧
      node.span = ⟨position, position + 1⟩ ∧ node.families = []
  /-- Every other node lists at least one family, and none twice. -/
  inner {id : NodeId} {node : Node T N} : f.node? id = some node →
    (∀ t, node.label ≠ .terminal t) → node.families ≠ [] ∧ node.families.Nodup
  suits {id : NodeId} {node : Node T N} {family : Family} : f.node? id = some node →
    family ∈ node.families → family.Suits g f node

variable {g : Grammar T N} {input : List T} {f : Forest T N}

/-- The label of a match is split into that of the match without its last
    symbol and that of the symbol. -/
theorem Grammar.splits_of_labels {rule dot : Nat} {before after : Label T N} {s : Symbol T N}
    (hbefore : g.labelAt? rule dot = some before) (hs : g.symbolAt? rule dot = some s)
    (hafter : g.labelAt? rule (dot + 1) = some after) : g.Splits after before s.label := by
  rcases symbolAt?_eq_some_iff.mp hs with ⟨r, hr, hs'⟩
  have hlt := (List.getElem?_eq_some_iff.mp hs').1
  -- The shorter match has a label, so there is a symbol in it.
  have hpos : dot ≠ 0 := by
    rintro rfl
    rw [labelAt?_zero] at hbefore
    cases hbefore
  rw [labelAt?_succ hr hs', if_neg fun h => hpos h.1, Option.some.injEq] at hafter
  by_cases hone : dot = 1
  · -- The match without its last symbol is one symbol, and has its label.
    subst hone
    have hfirst : r.body[0]? = some r.body[0] := List.getElem?_eq_getElem (by omega)
    rw [labelAt?_one hr hfirst hlt, Option.some.injEq] at hbefore
    subst hbefore
    split at hafter
    · rename_i hwhole
      subst hafter
      -- The body has these two symbols and no other.
      rcases List.length_eq_two.mp hwhole.symm with ⟨x, y, hbody⟩
      have hrule : ⟨r.head, [x, y]⟩ ∈ g.rules := by
        rw [← hbody]
        exact List.mem_of_getElem? hr
      have hlast : s = y := by
        rw [hbody] at hs'
        exact (Option.some.inj hs').symm
      have hx : r.body[0] = x := by simp only [hbody, List.getElem_cons_zero]
      rw [hx, hlast]
      exact .pair hrule
    · rename_i hpart
      subst hafter
      exact .start hr (by omega) hfirst hs'
  · rw [labelAt?_intermediate hr (by omega) hlt, Option.some.injEq] at hbefore
    subst hbefore
    split at hafter
    · rename_i hwhole
      subst hafter
      have hdot : dot = r.body.length - 1 := by omega
      have hlast : r.body.getLast? = some s := by rw [List.getLast?_eq_getElem?, ← hdot, hs']
      rw [hdot]
      exact .whole hr (by omega) hlast
    · rename_i hpart
      subst hafter
      exact .part hr (by omega) (by omega) hs'

/-- A way to derive what a node says fits the node. -/
theorem Forest.Way.suits {node : Node T N} {family : Family}
    (h : f.Way g node.label node.span family) : family.Suits g f node := by
  rcases node with ⟨label, span, families⟩
  cases h with
  | @epsilon n i hrule => exact ⟨n, rfl, rfl, hrule⟩
  | @unary n s _ child hrule hchild =>
      rcases hchild with ⟨_, hnode⟩
      exact ⟨n, s, _, hnode, rfl, hrule, rfl, rfl⟩
  | binary hbefore hs hafter hleft hright =>
      rcases hleft with ⟨_, hleft⟩
      rcases hright with ⟨_, hright⟩
      exact ⟨_, _, hleft, hright, rfl, rfl, rfl, Grammar.splits_of_labels hbefore hs hafter⟩

/-- What a label says is said within the input. -/
theorem Label.Holds.le_length {label : Label T N} {span : Span} (h : label.Holds g input span) :
    span.stop ≤ input.length := by
  cases label with
  | terminal t =>
      have hlt := (List.getElem?_eq_some_iff.mp h.1).1
      have hstop : span.stop = span.start + 1 := h.2
      omega
  | nonterminal n => exact h.2.le_length h.1.le_length
  | intermediate rule dot => exact h.2.2.le_length

/-- An exact forest is well-formed. -/
theorem Forest.Exact.wellFormed (h : f.Exact g input) : f.WellFormed g input where
  unique hnode hnode' hlabel hspan := by
    have hhas' := has_of_node? hnode'
    rw [← hlabel, ← hspan] at hhas'
    exact h.sound.unique (has_of_node? hnode) hhas'
  within hnode :=
    have hholds := h.sound.holds (has_of_node? hnode)
    ⟨hholds.derives.le, hholds.le_length⟩
  leaf {position t} ht := by
    have hholds : (Label.terminal t : Label T N).Holds g input ⟨position, position + 1⟩ := ⟨ht, rfl⟩
    rcases h.has hholds with ⟨id, families, hnode⟩
    have hbare : families = [] := (h.sound.bare hnode).mpr ⟨t, rfl⟩
    subst hbare
    exact ⟨id, hnode, fun id' hnode' => h.sound.unique ⟨[], hnode'⟩ ⟨[], hnode⟩⟩
  terminal {id node t} hnode hlabel := by
    have hhas := has_of_node? hnode
    rw [hlabel] at hhas
    rcases node with ⟨label, ⟨i, j⟩, families⟩
    rcases h.sound.holds hhas with ⟨ht, rfl⟩
    exact ⟨i, ht, rfl, (h.sound.bare hnode).mpr ⟨t, hlabel⟩⟩
  inner hnode hlabel := ⟨h.sound.families_ne_nil hnode hlabel, h.sound.nodup hnode⟩
  suits {id node family} hnode hfamily :=
    (h.sound.way ⟨node.families, hnode, hfamily⟩).suits

end EarleyForest
