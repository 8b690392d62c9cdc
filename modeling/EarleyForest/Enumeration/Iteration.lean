import EarleyForest.Enumeration.Search

/-!
# Enumerating Derivations

All derivations below one node of a forest, one at a time. Between two
derivations nothing is kept but the setting of the odometer to try next.

Derivations come in the order of a walk that tries the families of a node
slowest, those of its left child faster, and those of its right child
fastest.

## Main definitions

* `Refusal`: Why derivations cannot be enumerated from a root.
* `Enumeration`: A forest, its tokens and the setting to try next.
* `Enumeration.ofRoot`: Starts at the first derivation.
* `Pull`: The attempts made for one more derivation.
* `Enumeration.next`: Makes them.
* `Enumeration.pullUpTo`: Repeats that, up to a number of derivations.

## Theorems

* `built?_concat`, `isFaulty_concat`, `following?_concat`: What the last attempt
  tells.
* `ofRoot_eq_ok_iff`, `ofRoot_eq_error_iff`, `exists_ofRoot_eq_error_iff`: When
  an enumeration starts, and when it is refused.
-/

namespace EarleyForest

variable {T N Tok Out : Type}

/-- Why derivations cannot be enumerated from a root. -/
inductive Refusal where
  /-- The forest has no such node. -/
  | unknownRoot (root : NodeId)
  /-- The node stands for a part of a rule's body only. -/
  | intermediateRoot (root : NodeId)
  /-- The node's span goes beyond the tokens. -/
  | tooFewTokens (given needed : Nat)
deriving DecidableEq

/-- The wording of a refusal. -/
def Refusal.message : Refusal → String
  | unknownRoot root => s!"the forest has no node {root}"
  | intermediateRoot root => s!"intermediate node NodeId({root}) cannot root a derivation"
  | tooFewTokens given needed =>
    s!"{given} tokens cannot cover a forest spanning {needed} terminals"

/-- An enumeration of derivations. -/
structure Enumeration (T N Tok Out : Type) where
  forest : Forest T N
  tokens : List Tok
  builder : Builder T N Tok Out
  /-- The root and the setting to try next, as long as one is left. -/
  upcoming : Option (NodeId × List Digit)

/-- The attempts made for one more derivation. There are none if no setting
    was left before. -/
structure Pull (T N Tok Out : Type) where
  attempts : List (Attempt T N Tok Out)

namespace Pull

/-- What the last attempt built, unless it failed. -/
def built? (p : Pull T N Tok Out) : Option Out :=
  p.attempts.getLast?.bind fun last =>
    match last.ending with
    | .built out => some out
    | .halted _ => none

/-- The forest, the digits or the tokens did not fit together. -/
def isFaulty (p : Pull T N Tok Out) : Bool :=
  p.attempts.getLast?.any fun last =>
    match last.ending with
    | .halted .fault => true
    | _ => false

/-- The builder's calls in all attempts. -/
def calls (p : Pull T N Tok Out) : List (Call T N Tok) := p.attempts.flatMap Attempt.calls

theorem built?_concat (pruned : List (Attempt T N Tok Out)) (last : Attempt T N Tok Out) :
    built? ⟨pruned ++ [last]⟩ =
      match last.ending with
      | .built out => some out
      | .halted _ => none := by
  simp only [built?, List.getLast?_concat, Option.bind_some]

theorem isFaulty_concat (pruned : List (Attempt T N Tok Out)) (last : Attempt T N Tok Out) :
    isFaulty ⟨pruned ++ [last]⟩ =
      match last.ending with
      | .halted .fault => true
      | _ => false := by
  simp only [isFaulty, List.getLast?_concat, Option.any_some]

end Pull

namespace Enumeration

/-- Starts at the first derivation below a root, if there is a root. The root
    must be able to stand for a derivation of its own, and each position that
    it covers must have a token. -/
def ofRoot (forest : Forest T N) (root : Option NodeId) (tokens : List Tok)
    (builder : Builder T N Tok Out) : Except Refusal (Enumeration T N Tok Out) :=
  match root with
  | none => .ok ⟨forest, tokens, builder, none⟩
  | some id =>
    match forest.node? id with
    | none => .error (.unknownRoot id)
    | some node =>
      if node.label.isIntermediate then .error (.intermediateRoot id)
      else if tokens.length < node.span.stop then
        .error (.tooFewTokens tokens.length node.span.stop)
      else .ok ⟨forest, tokens, builder, some (id, [])⟩

/-- An enumeration starts at a node that is no part of a rule's body, if there
    are tokens for it, and with no digits set. -/
theorem ofRoot_eq_ok_iff {f : Forest T N} {id : NodeId} {tokens : List Tok}
    {builder : Builder T N Tok Out} {e : Enumeration T N Tok Out} :
    ofRoot f (some id) tokens builder = .ok e ↔
      e = ⟨f, tokens, builder, some (id, [])⟩ ∧ ∃ node, f.node? id = some node ∧
        node.label.isIntermediate = false ∧ node.span.stop ≤ tokens.length := by
  constructor
  · intro h
    simp only [ofRoot] at h
    split at h
    · cases h
    · rename_i node hnode
      split at h
      · cases h
      · rename_i hlabel
        split at h
        · cases h
        · rename_i htokens
          exact ⟨(Except.ok.inj h).symm, node, hnode, Bool.eq_false_iff.mpr hlabel,
            Nat.le_of_not_lt htokens⟩
  · rintro ⟨rfl, node, hnode, hlabel, htokens⟩
    simp only [ofRoot, hnode, hlabel, Bool.false_eq_true, if_false,
      if_neg (Nat.not_lt_of_le htokens)]

/-- From a part of a rule's body an enumeration is refused, and from any other
    node if there are too few tokens. -/
theorem ofRoot_eq_error_iff {f : Forest T N} {id : NodeId} {node : Node T N} {tokens : List Tok}
    {builder : Builder T N Tok Out} (hnode : f.node? id = some node) (refusal : Refusal) :
    ofRoot f (some id) tokens builder = .error refusal ↔
      node.label.isIntermediate = true ∧ refusal = .intermediateRoot id ∨
        node.label.isIntermediate = false ∧ tokens.length < node.span.stop ∧
          refusal = .tooFewTokens tokens.length node.span.stop := by
  simp only [ofRoot, hnode]
  cases hlabel : node.label.isIntermediate with
  | true =>
      rw [if_pos rfl]
      simp only [Except.error.injEq, true_and, Bool.true_eq_false, false_and, or_false]
      exact eq_comm
  | false =>
      rw [if_neg Bool.false_ne_true]
      by_cases htokens : tokens.length < node.span.stop
      · rw [if_pos htokens]
        simp only [Except.error.injEq, Bool.false_eq_true, false_and, true_and, false_or, htokens]
        exact eq_comm
      · rw [if_neg htokens]
        simp only [reduceCtorEq, Bool.false_eq_true, false_and, htokens, and_false, or_false]

theorem exists_ofRoot_eq_error_iff {f : Forest T N} {id : NodeId} {node : Node T N}
    {tokens : List Tok} {builder : Builder T N Tok Out} (hnode : f.node? id = some node) :
    (∃ refusal, ofRoot f (some id) tokens builder = .error refusal) ↔
      node.label.isIntermediate = true ∨ tokens.length < node.span.stop := by
  simp only [ofRoot_eq_error_iff hnode]
  constructor
  · rintro ⟨refusal, ⟨hlabel, _⟩ | ⟨_, hlt, _⟩⟩
    · exact Or.inl hlabel
    · exact Or.inr hlt
  · intro h
    cases hlabel : node.label.isIntermediate with
    | true => exact ⟨_, Or.inl ⟨rfl, rfl⟩⟩
    | false =>
        rw [hlabel] at h
        exact ⟨_, Or.inr ⟨rfl, h.resolve_left Bool.false_ne_true, rfl⟩⟩

/-- The setting behind the last attempt, if there is one. -/
def following? (attempts : List (Attempt T N Tok Out)) : Option (List Digit) :=
  attempts.getLast?.bind fun last =>
    match last.ending with
    | .halted .fault => none
    | _ => Odometer.advance last.digits

theorem following?_concat (pruned : List (Attempt T N Tok Out)) (last : Attempt T N Tok Out) :
    following? (pruned ++ [last]) =
      match last.ending with
      | .halted .fault => none
      | _ => Odometer.advance last.digits := by
  simp only [following?, List.getLast?_concat, Option.bind_some]

/-- Goes on to the next derivation. -/
def next (e : Enumeration T N Tok Out) : Pull T N Tok Out × Enumeration T N Tok Out :=
  match e.upcoming with
  | none => (⟨[]⟩, e)
  | some (root, setting) =>
    let attempts := search e.forest e.tokens e.builder root setting
    (⟨attempts⟩, { e with upcoming := (following? attempts).map (root, ·) })

theorem next_of_upcoming {e : Enumeration T N Tok Out} (h : e.upcoming = none) :
    e.next = (⟨[]⟩, e) := by
  rw [next, h]

/-- Goes on by a number of derivations, or until there is none. -/
def pullUpTo : Nat → Enumeration T N Tok Out →
    List (Pull T N Tok Out) × Enumeration T N Tok Out
  | 0, e => ([], e)
  | n + 1, e =>
    let (pull, e) := e.next
    match pull.built? with
    | none => ([pull], e)
    | some _ =>
      let (later, e) := pullUpTo n e
      (pull :: later, e)

end Enumeration

end EarleyForest
