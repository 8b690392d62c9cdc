import EarleyForest.Grammar.Basic

/-!
# Derivations

What a grammar says about an input, without any way to find it out. Symbols
written one after the other derive a stretch of the input if the stretch can
be cut into pieces, one for each symbol, such that a terminal has the piece
that consists of itself and a nonterminal has a piece that the body of one of
its rules derives. Derivations are finite; nonterminals whose rules lead back
to themselves derive nothing by that alone.

Not every derivation is of use from the start symbol on. A nonterminal is
reached at a position if some part of a derivation that starts with the start
symbol at position zero asks for it there.

## Main definitions

* `Grammar.Derives`: Symbols derive a stretch of the input.
* `Grammar.Reaches`: A nonterminal is asked for at a position.

## Theorems

* `derives_nil_iff`, `derives_terminal_iff`, `derives_nonterminal_iff`: What
  no symbol and what each kind of symbol derives.
* `derives_append_iff`: Symbols derive by parts.
* `Derives.le`: A derived stretch does not end before it starts.
-/

namespace EarleyForest

namespace Grammar

variable {T N : Type}

/-- Symbols one after the other derive the input from one position to
    another. -/
inductive Derives (g : Grammar T N) (input : List T) :
    List (Symbol T N) → Nat → Nat → Prop where
  | nil (i : Nat) : Derives g input [] i i
  | terminal {t : T} {rest : List (Symbol T N)} {i j : Nat} (here : input[i]? = some t)
      (behind : Derives g input rest (i + 1) j) : Derives g input (.terminal t :: rest) i j
  | nonterminal {r : Rule T N} {n : N} {rest : List (Symbol T N)} {i k j : Nat}
      (rule : r ∈ g.rules) (head : r.head = n) (body : Derives g input r.body i k)
      (behind : Derives g input rest k j) : Derives g input (.nonterminal n :: rest) i j

/-- A derivation from the start symbol asks for a nonterminal at a position:
    for the start symbol at position zero, and for a nonterminal of a body
    where what stands before it in the body has been derived. -/
inductive Reaches (g : Grammar T N) (input : List T) : N → Nat → Prop where
  | start : Reaches g input g.start 0
  | body {r : Rule T N} {before behind : List (Symbol T N)} {n : N} {i k : Nat}
      (asked : Reaches g input r.head i) (rule : r ∈ g.rules)
      (parts : r.body = before ++ .nonterminal n :: behind)
      (derived : g.Derives input before i k) : Reaches g input n k

variable {g : Grammar T N} {input : List T}

/-- No symbol derives the empty stretch only. -/
theorem derives_nil_iff {i j : Nat} : g.Derives input [] i j ↔ i = j := by
  constructor
  · intro h
    cases h
    rfl
  · rintro rfl
    exact .nil i

/-- Symbols derive a stretch if one part of them derives its beginning and
    the other part the rest. -/
theorem derives_append_iff {first second : List (Symbol T N)} {i j : Nat} :
    g.Derives input (first ++ second) i j ↔
      ∃ k, g.Derives input first i k ∧ g.Derives input second k j := by
  constructor
  · intro h
    induction first generalizing i with
    | nil => exact ⟨i, .nil i, h⟩
    | cons s rest ih =>
        cases h with
        | terminal here behind =>
            rcases ih behind with ⟨k, hfirst, hsecond⟩
            exact ⟨k, .terminal here hfirst, hsecond⟩
        | nonterminal rule head body behind =>
            rcases ih behind with ⟨k, hfirst, hsecond⟩
            exact ⟨k, .nonterminal rule head body hfirst, hsecond⟩
  · rintro ⟨k, hfirst, hsecond⟩
    induction hfirst with
    | nil i => exact hsecond
    | terminal here _ ih => exact .terminal here (ih hsecond)
    | nonterminal rule head body _ _ ih => exact .nonterminal rule head body (ih hsecond)

/-- A terminal derives the piece that consists of itself. -/
theorem derives_terminal_iff {t : T} {i j : Nat} :
    g.Derives input [.terminal t] i j ↔ input[i]? = some t ∧ j = i + 1 := by
  constructor
  · intro h
    cases h with
    | terminal here behind => exact ⟨here, (derives_nil_iff.mp behind).symm⟩
  · rintro ⟨here, rfl⟩
    exact .terminal here (.nil _)

/-- A nonterminal derives what the bodies of its rules derive. -/
theorem derives_nonterminal_iff {n : N} {i j : Nat} :
    g.Derives input [.nonterminal n] i j ↔
      ∃ r ∈ g.rules, r.head = n ∧ g.Derives input r.body i j := by
  constructor
  · intro h
    cases h with
    | nonterminal rule head body behind =>
        rw [derives_nil_iff] at behind
        subst behind
        exact ⟨_, rule, head, body⟩
  · rintro ⟨r, rule, head, body⟩
    exact .nonterminal rule head body (.nil _)

/-- A derived stretch does not end before it starts. -/
theorem Derives.le {symbols : List (Symbol T N)} {i j : Nat}
    (h : g.Derives input symbols i j) : i ≤ j := by
  induction h with
  | nil i => exact Nat.le_refl i
  | terminal _ _ ih => omega
  | nonterminal _ _ _ _ ihBody ihBehind => exact Nat.le_trans ihBody ihBehind

/-- A derived stretch stays within the input, if it starts there. -/
theorem Derives.le_length {symbols : List (Symbol T N)} {i j : Nat}
    (h : g.Derives input symbols i j) (hi : i ≤ input.length) : j ≤ input.length := by
  induction h with
  | nil _ => exact hi
  | terminal here _ ih => exact ih (List.getElem?_eq_some_iff.mp here).1
  | nonterminal _ _ _ _ ihBody ihBehind => exact ihBehind (ihBody hi)

end Grammar

end EarleyForest
