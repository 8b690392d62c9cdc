import EarleyForest.Forest.Basic
import EarleyForest.Proofs.Grammar.Prefix

/-!
# What Labels Say

A node of a forest says by its label and its span that something derives a
part of the input: one symbol, or the first symbols of a rule's body. A
nonterminal says besides that it is asked for at the start of the span, and a
part of a body that the head of its rule is.

The matched part of a rule has its node under a label of its own only where
it has to. The whole body is labelled with the head, one symbol out of
several with that symbol, and only what lies in between with the rule and the
dot.

## Main definitions

* `Symbol.label`: The label of a symbol.
* `Grammar.labelAt?`: The label of the first symbols of a rule.
* `Grammar.spelled`: The symbols that a label stands for.
* `Label.Holds`: What a label says about a span.

## Theorems

* `labelAt?_succ`: The label of a match that has moved on.
* `pos_of_labelAt?`, `eq_of_labelAt?_intermediate`,
  `eq_of_labelAt?_nonterminal`: What a label tells about its match.
* `spelled_labelAt?`: The symbols that the label of a match stands for.
* `Label.Holds.derives`: The symbols of a label derive its span.
* `Matched.holds`: The label of a match says what is matched.
-/

namespace EarleyForest

variable {T N : Type}

/-- The label of a symbol. -/
def Symbol.label : Symbol T N → Label T N
  | terminal t => .terminal t
  | nonterminal n => .nonterminal n

theorem Symbol.label_ne_intermediate (s : Symbol T N) (rule dot : Nat) :
    s.label ≠ .intermediate rule dot := by
  cases s <;> simp only [label, ne_eq, reduceCtorEq, not_false_eq_true]

namespace Grammar

/-- The label of the node for the first `dot` symbols of rule `rule`. There is
    no node as long as the dot is zero. -/
def labelAt? (g : Grammar T N) (rule dot : Nat) : Option (Label T N) :=
  g.rules[rule]?.bind fun r =>
    if dot = 0 ∨ r.body.length < dot then none
    else if dot = r.body.length then some (.nonterminal r.head)
    else if dot = 1 then r.body[0]?.map Symbol.label
    else some (.intermediate rule dot)

/-- The symbols that a label stands for. -/
def spelled (g : Grammar T N) : Label T N → List (Symbol T N)
  | .terminal t => [.terminal t]
  | .nonterminal n => [.nonterminal n]
  | .intermediate rule dot => (g.rules[rule]?.map fun r => r.body.take dot).getD []

theorem labelAt?_zero (g : Grammar T N) (rule : Nat) : g.labelAt? rule 0 = none := by
  simp only [labelAt?, true_or, if_true, Option.bind_eq_none_iff, implies_true]

theorem spelled_label (g : Grammar T N) (s : Symbol T N) : g.spelled s.label = [s] := by
  cases s <;> rfl

variable {g : Grammar T N}

/-- The label of a match that has moved on over one symbol: the symbol's own
    if it is the first of several, the head's if it is the last, and that of a
    part of the body otherwise. -/
theorem labelAt?_succ {rule dot : Nat} {r : Rule T N} {s : Symbol T N}
    (hr : g.rules[rule]? = some r) (hs : r.body[dot]? = some s) :
    g.labelAt? rule (dot + 1) =
      some (if dot = 0 ∧ 1 < r.body.length then s.label
        else if dot + 1 = r.body.length then .nonterminal r.head
        else .intermediate rule (dot + 1)) := by
  have hlt := (List.getElem?_eq_some_iff.mp hs).1
  -- The dot is in the body, so the label is that of one of three cases.
  have hin : ¬ (dot + 1 = 0 ∨ r.body.length < dot + 1) := by omega
  simp only [labelAt?, hr, Option.bind_some, if_neg hin]
  by_cases hwhole : dot + 1 = r.body.length
  · rw [if_pos hwhole, if_neg (by omega), if_pos hwhole]
  · by_cases hfirst : dot = 0
    · subst hfirst
      rw [if_neg hwhole, if_pos rfl, hs, if_pos ⟨rfl, by omega⟩, Option.map_some]
    · rw [if_neg hwhole, if_neg (by omega), if_neg (by omega), if_neg hwhole]

/-- One symbol out of several has the label of the symbol. -/
theorem labelAt?_one {rule : Nat} {r : Rule T N} {s : Symbol T N}
    (hr : g.rules[rule]? = some r) (hs : r.body[0]? = some s) (hlt : 1 < r.body.length) :
    g.labelAt? rule 1 = some s.label := by
  rw [labelAt?_succ hr hs, if_pos ⟨rfl, hlt⟩]

/-- Two symbols or more that are not the whole body have a label of their
    own. -/
theorem labelAt?_intermediate {rule dot : Nat} {r : Rule T N} (hr : g.rules[rule]? = some r)
    (hdot : 2 ≤ dot) (hlt : dot < r.body.length) :
    g.labelAt? rule dot = some (.intermediate rule dot) := by
  rcases Nat.exists_eq_add_of_le' hdot with ⟨d, rfl⟩
  have hs : r.body[d + 1]? = some r.body[d + 1] := List.getElem?_eq_getElem (by omega)
  rw [labelAt?_succ hr hs, if_neg (by omega), if_neg (by omega)]

/-- If the symbols of a whole body have a label, it is the head's. -/
theorem labelAt?_length {rule : Nat} {r : Rule T N} {label : Label T N}
    (hr : g.rules[rule]? = some r) (h : g.labelAt? rule r.body.length = some label) :
    label = .nonterminal r.head := by
  simp only [labelAt?, hr, Option.bind_some, Nat.lt_irrefl, or_false, if_true] at h
  split at h
  · cases h
  · exact (Option.some.inj h).symm

/-- The first symbols of a rule have a label if there is a last one among
    them. -/
theorem labelAt?_eq_some_iff {rule dot : Nat} {label : Label T N} :
    g.labelAt? rule (dot + 1) = some label ↔
      ∃ r, g.rules[rule]? = some r ∧ ∃ s, r.body[dot]? = some s ∧
        (if dot = 0 ∧ 1 < r.body.length then s.label
          else if dot + 1 = r.body.length then .nonterminal r.head
          else .intermediate rule (dot + 1)) = label := by
  constructor
  · intro h
    rcases Option.bind_eq_some_iff.mp h with ⟨r, hr, hlabel⟩
    by_cases hlt : dot < r.body.length
    · have hs : r.body[dot]? = some r.body[dot] := List.getElem?_eq_getElem hlt
      rw [labelAt?_succ hr hs, Option.some.injEq] at h
      exact ⟨r, hr, _, hs, h⟩
    · rw [if_pos (Or.inr (by omega))] at hlabel
      cases hlabel
  · rintro ⟨r, hr, s, hs, rfl⟩
    exact labelAt?_succ hr hs

/-- A match that has a label has a symbol. -/
theorem pos_of_labelAt? {rule dot : Nat} {label : Label T N}
    (h : g.labelAt? rule dot = some label) : 0 < dot := by
  cases dot with
  | zero => rw [labelAt?_zero] at h; cases h
  | succ dot => exact Nat.succ_pos dot

/-- A label that names a rule and a dot names those of the match. -/
theorem eq_of_labelAt?_intermediate {rule dot rule' dot' : Nat}
    (h : g.labelAt? rule dot = some (.intermediate rule' dot')) : rule = rule' ∧ dot = dot' := by
  cases dot with
  | zero => rw [labelAt?_zero] at h; cases h
  | succ dot =>
      rcases labelAt?_eq_some_iff.mp h with ⟨r, _, s, _, hlabel⟩
      split at hlabel
      · exact absurd hlabel (Symbol.label_ne_intermediate s rule' dot')
      · split at hlabel
        · cases hlabel
        · rwa [Label.intermediate.injEq] at hlabel

/-- Two symbols or more that have the label of a nonterminal are the whole body
    of a rule of it. -/
theorem eq_of_labelAt?_nonterminal {rule dot : Nat} {r : Rule T N} {n : N}
    (hr : g.rules[rule]? = some r) (hdot : 2 ≤ dot)
    (h : g.labelAt? rule dot = some (.nonterminal n)) : dot = r.body.length ∧ r.head = n := by
  rcases Nat.exists_eq_add_of_le' hdot with ⟨d, rfl⟩
  rcases labelAt?_eq_some_iff.mp h with ⟨r', hr', s, hs, hlabel⟩
  rw [hr, Option.some.injEq] at hr'
  subst hr'
  rw [if_neg (by omega)] at hlabel
  split at hlabel
  · rename_i hwhole
    exact ⟨hwhole, Label.nonterminal.inj hlabel⟩
  · cases hlabel

/-- The label of a match behind which a symbol is left stands for the symbols
    matched. -/
theorem spelled_labelAt? {rule dot : Nat} {r : Rule T N} {label : Label T N}
    (h : g.labelAt? rule dot = some label) (hr : g.rules[rule]? = some r)
    (hlt : dot < r.body.length) : g.spelled label = r.body.take dot := by
  cases dot with
  | zero => rw [labelAt?_zero] at h; cases h
  | succ dot =>
      rcases labelAt?_eq_some_iff.mp h with ⟨r', hr', s, hs, hlabel⟩
      rw [hr, Option.some.injEq] at hr'
      subst hr'
      -- It is the label of the first symbol, or names the rule and the dot.
      by_cases hfirst : dot = 0 ∧ 1 < r.body.length
      · rw [if_pos hfirst] at hlabel
        rw [← hlabel, spelled_label, List.take_add_one, hs, hfirst.1, List.take_zero]
        rfl
      · rw [if_neg hfirst, if_neg (Nat.ne_of_lt hlt)] at hlabel
        rw [← hlabel]
        simp only [spelled, hr, Option.map_some, Option.getD_some]

end Grammar

/-- What a label says about a span. -/
def Label.Holds (g : Grammar T N) (input : List T) : Label T N → Span → Prop
  | .terminal t, ⟨i, j⟩ => input[i]? = some t ∧ j = i + 1
  | .nonterminal n, ⟨i, j⟩ => g.Reaches input n i ∧ g.Derives input [.nonterminal n] i j
  | .intermediate rule dot, ⟨i, j⟩ =>
    2 ≤ dot ∧ (∃ r, g.rules[rule]? = some r ∧ dot < r.body.length) ∧
      g.Matched input rule dot i j

variable {g : Grammar T N} {input : List T}

/-- The symbols of a label derive its span. -/
theorem Label.Holds.derives {label : Label T N} {span : Span} (h : label.Holds g input span) :
    g.Derives input (g.spelled label) span.start span.stop := by
  cases label with
  | terminal t => exact Grammar.derives_terminal_iff.mpr h
  | nonterminal n => exact h.2
  | intermediate rule dot =>
      rcases h with ⟨_, _, r, hr, _, _, hderives⟩
      simp only [Grammar.spelled, hr, Option.map_some, Option.getD_some]
      exact hderives

/-- A symbol that stands where it may be used and derives a span has a label
    that says so. -/
theorem Symbol.label_holds {s : Symbol T N} {i j : Nat}
    (hasked : ∀ n, s = .nonterminal n → g.Reaches input n i) (h : g.Derives input [s] i j) :
    s.label.Holds g input ⟨i, j⟩ := by
  cases s with
  | terminal t => exact Grammar.derives_terminal_iff.mp h
  | nonterminal n => exact ⟨hasked n rfl, h⟩

/-- What a symbol's label says is that the symbol derives the span. -/
theorem Symbol.derives_of_label_holds {s : Symbol T N} {i j : Nat}
    (h : s.label.Holds g input ⟨i, j⟩) : g.Derives input [s] i j := by
  have hderives := h.derives
  rwa [Grammar.spelled_label] at hderives

/-- The label of a match says what is matched. -/
theorem Grammar.Matched.holds {rule dot i j : Nat} {label : Label T N}
    (h : g.Matched input rule dot i j) (hlabel : g.labelAt? rule dot = some label) :
    label.Holds g input ⟨i, j⟩ := by
  rcases id h with ⟨r, hr, hdot, hasked, hderives⟩
  cases dot with
  | zero => rw [labelAt?_zero] at hlabel; cases hlabel
  | succ dot =>
      -- The label depends on the symbol before the dot.
      have hs : r.body[dot]? = some r.body[dot] := List.getElem?_eq_getElem hdot
      rw [labelAt?_succ hr hs, Option.some.injEq] at hlabel
      subst hlabel
      split
      · -- One symbol out of several, at the start of the body.
        rename_i hfirst
        rcases hfirst with ⟨rfl, _⟩
        refine Symbol.label_holds (fun n hn => ?_) ?_
        · rw [hn, ← symbolAt?_of_rule hr] at hs
          exact Matched.reaches ⟨r, hr, Nat.zero_le _, hasked, .nil i⟩ hs
        · rw [List.take_add_one, hs, List.take_zero] at hderives
          exact hderives
      · split
        · -- The whole body.
          rename_i hwhole
          rw [hwhole, List.take_length] at hderives
          exact ⟨hasked, derives_nonterminal_iff.mpr
            ⟨r, List.mem_of_getElem? hr, rfl, hderives⟩⟩
        · exact ⟨by omega, ⟨r, hr, by omega⟩, h⟩

end EarleyForest
