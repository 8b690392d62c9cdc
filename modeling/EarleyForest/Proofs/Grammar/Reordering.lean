import Mathlib.Logic.Equiv.Basic
import EarleyForest.Grammar.Validity
import EarleyForest.Proofs.Forest.Label

/-!
# Grammars with Reordered Rules

The rules of a grammar may be written in another order. Then a rule goes by
another number, and with it the items and the labels that mention the rule.
What derives what does not change, and neither does what is asked for, what is
matched, and what a label says, as soon as the numbers are exchanged.

To exchange them back is a reordering as well, so each fact is proved for one
direction only.

## Main definitions

* `Grammar.Reorders`: The rules of a grammar in another order.
* `Grammar.succPerm`: Numbers exchanged behind the first one.
* `Label.renumber`: A label with the number of its rule exchanged.

## Theorems

* `exists_reorders`: Any order of the rules is one that numbers tell.
* `Derives.of_rules`, `Reaches.of_rules`: More rules lose no derivation.
* `Reorders.symm`: Exchanging the numbers back.
* `Reorders.validate_eq_ok`: A valid grammar stays valid.
* `Reorders.matched`, `Reorders.holds`: Matches and labels after an exchange.
-/

namespace EarleyForest

variable {T N : Type}

namespace Grammar

/-- The second grammar has the rules of the first in another order: what is
    rule `rule` in the first is rule `σ rule` in the second. Numbers that no
    rule has are exchanged among themselves. -/
structure Reorders (g : Grammar T N) (σ : Equiv.Perm Nat) (g' : Grammar T N) : Prop where
  start_eq : g'.start = g.start
  rules_eq (rule : Nat) : g'.rules[σ rule]? = g.rules[rule]?

/-- The first number stays what it is, and the others are exchanged as their
    predecessors are. -/
def succPerm (σ : Equiv.Perm Nat) : Equiv.Perm Nat where
  toFun
    | 0 => 0
    | n + 1 => σ n + 1
  invFun
    | 0 => 0
    | n + 1 => σ.symm n + 1
  left_inv n := by
    cases n with
    | zero => rfl
    | succ n => simp only [Equiv.symm_apply_apply]
  right_inv n := by
    cases n with
    | zero => rfl
    | succ n => simp only [Equiv.apply_symm_apply]

/-- What stands in one list at some number stands in the other at another. -/
theorem exists_getElem?_eq_of_perm {α : Type} {l l' : List α} (h : l.Perm l') :
    ∃ σ : Equiv.Perm Nat, ∀ i, l'[σ i]? = l[i]? := by
  induction h with
  | nil => exact ⟨Equiv.refl Nat, fun i => rfl⟩
  | cons a _ ih =>
      rcases ih with ⟨σ, hσ⟩
      refine ⟨succPerm σ, fun i => ?_⟩
      cases i with
      | zero => rfl
      | succ i => exact hσ i
  | swap a b l =>
      refine ⟨Equiv.swap 0 1, fun i => ?_⟩
      match i with
      | 0 => rfl
      | 1 => rfl
      | i + 2 =>
          rw [Equiv.swap_apply_of_ne_of_ne (by omega) (by omega)]
          rfl
  | trans _ _ ih ih' =>
      rcases ih with ⟨σ, hσ⟩
      rcases ih' with ⟨τ, hτ⟩
      exact ⟨σ.trans τ, fun i => (hτ (σ i)).trans (hσ i)⟩

/-- However the rules of a grammar are reordered, each has another number. -/
theorem exists_reorders {g g' : Grammar T N} (hstart : g'.start = g.start)
    (hrules : g.rules.Perm g'.rules) : ∃ σ, g.Reorders σ g' := by
  rcases exists_getElem?_eq_of_perm hrules with ⟨σ, hσ⟩
  exact ⟨σ, hstart, hσ⟩

section

variable {g g' : Grammar T N} {input : List T}

/-- What some rules derive is derived if there are more of them. -/
theorem Derives.of_rules (hrules : ∀ r ∈ g.rules, r ∈ g'.rules) {symbols : List (Symbol T N)}
    {i j : Nat} (h : g.Derives input symbols i j) : g'.Derives input symbols i j := by
  induction h with
  | nil i => exact .nil i
  | terminal here _ ih => exact .terminal here ih
  | nonterminal rule head _ _ ihBody ihBehind =>
      exact .nonterminal (hrules _ rule) head ihBody ihBehind

/-- What is asked for is asked for if there are more rules. -/
theorem Reaches.of_rules (hstart : g'.start = g.start) (hrules : ∀ r ∈ g.rules, r ∈ g'.rules)
    {n : N} {i : Nat} (h : g.Reaches input n i) : g'.Reaches input n i := by
  induction h with
  | start =>
      rw [← hstart]
      exact .start
  | body _ rule parts derived ih => exact .body ih (hrules _ rule) parts (derived.of_rules hrules)

end

end Grammar

/-- The label with another number for the rule that it mentions. -/
def Label.renumber (σ : Equiv.Perm Nat) : Label T N → Label T N
  | terminal t => .terminal t
  | nonterminal n => .nonterminal n
  | intermediate rule dot => .intermediate (σ rule) dot

/-- A symbol's label mentions no rule. -/
theorem Symbol.renumber_label (σ : Equiv.Perm Nat) (s : Symbol T N) :
    s.label.renumber σ = s.label := by
  cases s <;> rfl

theorem Label.renumber_renumber_symm (σ : Equiv.Perm Nat) (label : Label T N) :
    (label.renumber σ.symm).renumber σ = label := by
  cases label with
  | terminal t => rfl
  | nonterminal n => rfl
  | intermediate rule dot => simp only [renumber, Equiv.apply_symm_apply]

theorem Label.renumber_eq_terminal_iff {σ : Equiv.Perm Nat} {label : Label T N} {t : T} :
    label.renumber σ = .terminal t ↔ label = .terminal t := by
  cases label <;> simp only [renumber, reduceCtorEq]

namespace Grammar.Reorders

variable {g g' : Grammar T N} {σ : Equiv.Perm Nat} {input : List T}

/-- The numbers may be exchanged back. -/
theorem symm (h : g.Reorders σ g') : g'.Reorders σ.symm g where
  start_eq := h.start_eq.symm
  rules_eq rule := by rw [← h.rules_eq, Equiv.apply_symm_apply]

theorem mem_rules (h : g.Reorders σ g') : ∀ r ∈ g.rules, r ∈ g'.rules := by
  intro r hr
  rcases List.getElem?_of_mem hr with ⟨rule, hrule⟩
  rw [← h.rules_eq] at hrule
  exact List.mem_of_getElem? hrule

theorem derives (h : g.Reorders σ g') {symbols : List (Symbol T N)} {i j : Nat}
    (hderives : g.Derives input symbols i j) : g'.Derives input symbols i j :=
  hderives.of_rules h.mem_rules

theorem reaches (h : g.Reorders σ g') {n : N} {i : Nat} (hasked : g.Reaches input n i) :
    g'.Reaches input n i :=
  hasked.of_rules h.start_eq h.mem_rules

/-- A grammar without flaws has none if its rules are reordered. -/
theorem validate_eq_ok [DecidableEq N] (h : g.Reorders σ g') (hvalid : g.validate = .ok ()) :
    g'.validate = .ok () := by
  rw [validate_eq_ok_iff] at hvalid ⊢
  rcases hvalid with ⟨hstart, hbodies⟩
  -- A head of the one grammar is a head of the other.
  have hdeclares : ∀ n, g.Declares n → g'.Declares n := by
    rintro n ⟨r, hr, hhead⟩
    exact ⟨r, h.mem_rules r hr, hhead⟩
  rw [h.start_eq]
  exact ⟨hdeclares _ hstart, fun r hr n hn => hdeclares n (hbodies r (h.symm.mem_rules r hr) n hn)⟩

theorem symbolAt?_eq (h : g.Reorders σ g') (rule dot : Nat) :
    g'.symbolAt? (σ rule) dot = g.symbolAt? rule dot := by
  rw [symbolAt?, symbolAt?, h.rules_eq]

/-- A match of a rule is one of the same rule by its other number. -/
theorem matched (h : g.Reorders σ g') {rule dot i j : Nat}
    (hmatched : g.Matched input rule dot i j) : g'.Matched input (σ rule) dot i j := by
  rcases hmatched with ⟨r, hr, hdot, hasked, hderives⟩
  exact ⟨r, (h.rules_eq rule).trans hr, hdot, h.reaches hasked, h.derives hderives⟩

/-- Items with the numbers exchanged claim the same. -/
theorem matched_iff (h : g.Reorders σ g') {rule dot i j : Nat} :
    g'.Matched input (σ rule) dot i j ↔ g.Matched input rule dot i j := by
  refine ⟨fun hmatched => ?_, h.matched⟩
  have hback := h.symm.matched hmatched
  rwa [Equiv.symm_apply_apply] at hback

/-- The label of a match of a rule by its other number. -/
theorem labelAt?_eq (h : g.Reorders σ g') (rule dot : Nat) :
    g'.labelAt? (σ rule) dot = (g.labelAt? rule dot).map (Label.renumber σ) := by
  unfold labelAt?
  rw [h.rules_eq]
  cases g.rules[rule]? with
  | none => rfl
  | some r =>
      simp only [Option.bind_some]
      split
      · rfl
      · split
        · rfl
        · split
          · cases r.body[0]? with
            | none => rfl
            | some s => simp only [Option.map_some, Symbol.renumber_label]
          · rfl

/-- What a label says is said by the label with the numbers exchanged. -/
theorem holds (h : g.Reorders σ g') {label : Label T N} {span : Span}
    (hholds : label.Holds g input span) : (label.renumber σ).Holds g' input span := by
  cases label with
  | terminal t => exact hholds
  | nonterminal n => exact ⟨h.reaches hholds.1, h.derives hholds.2⟩
  | intermediate rule dot =>
      rcases hholds with ⟨hdot, ⟨r, hr, hlt⟩, hmatched⟩
      exact ⟨hdot, ⟨r, (h.rules_eq rule).trans hr, hlt⟩, h.matched hmatched⟩

end Grammar.Reorders

end EarleyForest
