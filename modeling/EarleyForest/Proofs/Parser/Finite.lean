import EarleyForest.Proofs.Enumeration.Stack
import EarleyForest.Proofs.Enumeration.Walked
import EarleyForest.Proofs.Parser.Rooted

/-!
# Enumerations Come to an End

Whatever cycles there are in the forest of a parse, an enumeration gives a
finite number of things. Each of its walks ends, each time it goes on it makes
a finite number of attempts, and once it has given nothing it makes no attempt
any more. No tree that it gives has a nonterminal inside itself over the same
span.

## Main definitions

* `Enumeration.after`: An enumeration that has gone on a number of times.

## Theorems

* `Yields.after`: What is still to be given after that.
* `Yields.attempts`: The attempts made for one thing.
* `enumeration_ends`: Enumerations of a parse come to an end.
-/

namespace EarleyForest

variable {T N Tok Out : Type}

namespace Enumeration

/-- The enumeration when it has gone on a number of times. -/
def after (e : Enumeration T N Tok Out) : Nat → Enumeration T N Tok Out
  | 0 => e
  | count + 1 => e.next.2.after count

theorem given?_eq_after (e : Enumeration T N Tok Out) (count : Nat) :
    e.given? count = (e.after count).next.1.built? := by
  induction count generalizing e with
  | zero => rfl
  | succ count ih => exact ih e.next.2

/-- Once an enumeration has given nothing, it is and stays at its end. -/
theorem upcoming_after (e : Enumeration T N Tok Out) {count later : Nat}
    (h : e.given? count = none) (hlt : count < later) : (e.after later).upcoming = none := by
  induction later generalizing e count with
  | zero => exact absurd hlt (Nat.not_lt_zero _)
  | succ later ih =>
      cases count with
      | succ count => exact ih e.next.2 h (Nat.lt_of_succ_lt_succ hlt)
      | zero =>
          have hend := upcoming_next h
          cases later with
          | zero => exact hend
          | succ later =>
              exact ih e.next.2 (given?_of_upcoming hend 0) (Nat.succ_pos later)

/-- What is still to be given when an enumeration has gone on. -/
theorem Yields.after {e : Enumeration T N Tok Out} {outs : List Out} (h : e.Yields outs)
    (count : Nat) : (e.after count).Yields (outs.drop count) := by
  induction count generalizing e outs with
  | zero => exact h
  | succ count ih =>
      cases h with
      | nil built sane =>
          -- Nothing is left, and nothing is left behind that either.
          rw [List.drop_nil, ← List.drop_nil (i := count)]
          refine ih (.nil ?_ ?_)
          · rw [next_of_upcoming (upcoming_next built)]
            rfl
          · rw [next_of_upcoming (upcoming_next built)]
            rfl
      | cons built later => exact ih later

/-- For one thing an enumeration makes attempts that run into cycles, and one
    more. That one gives the next thing if there is one, and otherwise it runs
    into a cycle as well. There are no attempts at all once the odometer has
    come to its end. -/
theorem Yields.attempts {e : Enumeration T N Tok Out} {outs : List Out} (h : e.Yields outs) :
    e.next.1.attempts = [] ∧ outs = [] ∨
      ∃ pruned last, e.next.1.attempts = pruned ++ [last] ∧
        (∀ tried ∈ pruned, tried.ending = .halted .cycle) ∧
        ((∃ out, last.ending = .built out ∧ outs.head? = some out) ∨
          last.ending = .halted .cycle ∧ outs = []) := by
  cases h with
  | cons built later =>
      rcases attempts_of_built? built with ⟨pruned, last, hattempts, hpruned, hlast⟩
      exact Or.inr ⟨pruned, last, hattempts, hpruned, Or.inl ⟨_, hlast, rfl⟩⟩
  | nil built sane =>
      rcases e.next_cases with ⟨_, hnext⟩ |
        ⟨pruned, last, hattempts, hpruned, ⟨out, _, hbuilt⟩ | ⟨reason, hlast, _, hfaulty, _⟩⟩
      · exact Or.inl ⟨by rw [hnext], rfl⟩
      · rw [built] at hbuilt
        cases hbuilt
      · -- Nothing was built and nothing has failed, so it was a cycle.
        refine Or.inr ⟨pruned, last, hattempts, hpruned, Or.inr ⟨?_, rfl⟩⟩
        cases reason with
        | cycle => exact hlast
        | fault =>
            rw [hfaulty.mpr rfl] at sane
            cases sane

end Enumeration

namespace Parser

variable [DecidableEq T] [DecidableEq N]

/-- From any node of a parse that is no part of a rule's body, with enough
    tokens: each walk ends after a number of steps, with no node on its stack
    twice. What is given is a finite list. Each thing takes a finite number of
    attempts, which run into cycles but for the last, and behind the end there
    are none and the builder is not called. No tree repeats a nonterminal. -/
theorem enumeration_ends (p : Parser T N) (input : List T) (tokens : List Tok) {id : NodeId}
    {node : Node T N} (hnode : (p.parse input).forest.node? id = some node)
    (hlabel : node.label.isIntermediate = false) (htokens : node.span.stop ≤ tokens.length)
    (builder : Builder T N Tok Out) :
    (∀ setting : List Digit,
      (∃ n, Walk.steps (p.parse input).forest tokens builder id n ⟨[], setting, []⟩ =
        Walk.whole (p.parse input).forest tokens builder id ⟨[], setting, []⟩) ∧
      ∀ n stack trail, Walk.steps (p.parse input).forest tokens builder id n ⟨[], setting, []⟩ =
        .ok (.busy stack) trail → (stack.map Frame.id).Nodup) ∧
    (∃ (e : Enumeration T N Tok Out) (outs : List Out),
      Enumeration.ofRoot (p.parse input).forest (some id) tokens builder = .ok e ∧
      (∀ count, e.given? count = outs[count]?) ∧
      (∀ count, (e.after count).next.1.attempts = [] ∧ outs[count]? = none ∨
        ∃ pruned last, (e.after count).next.1.attempts = pruned ++ [last] ∧
          (∀ tried ∈ pruned, tried.ending = .halted .cycle) ∧
          ((∃ out, last.ending = .built out ∧ outs[count]? = some out) ∨
            last.ending = .halted .cycle ∧ outs[count]? = none)) ∧
      ∀ count later, e.given? count = none → count < later →
        e.given? later = none ∧ (e.after later).next.1.calls = []) ∧
    ∃ e, Enumeration.ofRoot (p.parse input).forest (some id) tokens Builder.tree = .ok e ∧
      ∀ count tree, e.given? count = some tree → ¬ tree.Repeats := by
  have hsound := (p.grammar.parse_exact input).sound
  have hhas := Forest.has_of_node? hnode
  refine ⟨fun setting => ⟨Walk.exists_steps _ _ _ _ _, fun n stack trail => Walk.nodup_steps⟩,
    ?_, ?_⟩
  · rcases Enumeration.yields_nested hsound hhas hlabel htokens builder with ⟨e, he, hyields⟩
    refine ⟨e, _, he, Enumeration.given?_of_yields hyields, fun count => ?_,
      fun count later hnone hlt => ?_⟩
    · have hattempts := (hyields.after count).attempts
      rwa [List.head?_drop, List.drop_eq_nil_iff, ← List.getElem?_eq_none_iff] at hattempts
    · -- The enumeration came to its end with what it did not give.
      have hend := e.upcoming_after hnone hlt
      rw [Enumeration.given?_eq_after, Enumeration.next_of_upcoming hend]
      exact ⟨rfl, rfl⟩
  · rcases Forest.has_symbol_of_node? hnode hlabel with ⟨s, _, hhas'⟩
    rcases Enumeration.yields_nested hsound hhas hlabel htokens Builder.tree with ⟨e, he, hyields⟩
    refine ⟨e, he, fun count tree hgiven => ?_⟩
    have hmem := (Enumeration.shows_of_given? hsound hhas' hyields hgiven).1
    have hwalked := Enumeration.walked_of_mem_nested hsound hmem
    exact (hwalked.new hsound tree (List.mem_singleton_self tree)).once

/-- A node that is its own child gives one tree, and then nothing. -/
theorem looped_ends :
    ∃ e : Enumeration Char Nat Char (Tree Nat Char),
      Enumeration.ofRoot (looped.parse ['a']).forest (some 1) ['a'] Builder.tree = .ok e ∧
      ∃ outs : List (Tree Nat Char), (∀ count, e.given? count = outs[count]?) ∧
        ∀ tree ∈ outs, ¬ tree.Repeats := by
  rcases enumeration_ends looped ['a'] ['a'] looped_node_one rfl (Nat.le_refl 1) Builder.tree with
    ⟨_, ⟨e, outs, he, hgiven, _⟩, e', he', hrepeats⟩
  rw [he, Except.ok.injEq] at he'
  subst he'
  refine ⟨e, he, outs, hgiven, fun tree htree => ?_⟩
  rcases List.getElem?_of_mem htree with ⟨count, hcount⟩
  exact hrepeats count tree ((hgiven count).trans hcount)

end Parser

end EarleyForest
