import EarleyForest.Enumeration.Iteration
import EarleyForest.Proofs.Enumeration.Survey

/-!
# The Sequence of Derivations

An enumeration goes through the outcomes of its walk's plan, one attempt for
each and none twice. An attempt that runs into a cycle is passed over, every
other one gives a derivation, and the enumeration is at its end when the
outcomes are. So the derivations come one at a time in the order in which
nested loops list them.

## Main definitions

* `Outcome.attempt`: The attempt that ends with an outcome.
* `Enumeration.Awaits`: The outcomes to which an enumeration has still to come.
* `Enumeration.Yields`: What an enumeration gives until there is nothing left.
* `Enumeration.given?`: What an enumeration gives when it has gone on a number
  of times.

## Theorems

* `attempt_spec`: An attempt ends with the first outcome from its setting on.
* `search_spec`: A search passes over the outcomes that are cycles.
* `next_cases`: All that going on does.
* `attempts_of_built?`: The attempts behind what is given.
* `Awaits.next`: Going on to the next derivation.
* `given?_of_yields`: What an enumeration gives is given in order, and nothing
  after it.
* `yields_nested`: An enumeration gives the derivations of nested loops.
-/

namespace EarleyForest

variable {T N Tok Out : Type}

namespace Outcome

/-- The attempt that ends with this outcome. -/
def attempt (o : Outcome T N Tok (List Out)) : Attempt T N Tok Out where
  ending :=
    match o.ending with
    | .ok [out] => .built out
    | .ok _ => .halted .fault
    | .error reason => .halted reason
  digits := o.digits
  calls := o.calls

/-- The one thing that the walk has built, unless it has halted. -/
def only? (o : Outcome T N Tok (List Out)) : Option Out :=
  match o.ending with
  | .ok [out] => some out
  | _ => none

/-- The walk has built one thing or has run into a cycle. -/
def Regular (o : Outcome T N Tok (List Out)) : Prop :=
  (∃ out, o.ending = .ok [out]) ∨ o.ending = .error .cycle

theorem attempt_ending_eq_cycle_iff {o : Outcome T N Tok (List Out)} :
    o.attempt.ending = .halted .cycle ↔ o.ending = .error .cycle := by
  unfold attempt
  cases o.ending with
  | ok below =>
      match below with
      | [] => simp only [Ending.halted.injEq, reduceCtorEq]
      | [out] => simp only [reduceCtorEq]
      | _ :: _ :: _ => simp only [Ending.halted.injEq, reduceCtorEq]
  | error reason => simp only [Ending.halted.injEq, Except.error.injEq]

end Outcome

namespace Enumeration

section

variable {f : Forest T N} {tokens : List Tok} {builder : Builder T N Tok Out} {root : NodeId}

/-- An attempt ends with the first outcome from its setting on. -/
theorem attempt_spec {setting : List Digit} {first : Outcome T N Tok (List Out)}
    {later : List (Outcome T N Tok (List Out))}
    (h : (Plan.walk f tokens builder [] root).Leads setting first later) :
    attempt f tokens builder root setting = first.attempt := by
  -- The walk is that of the plan, from an empty trail.
  have hrun := h.run [] []
  rw [Plan.run_walk] at hrun
  unfold attempt
  rw [hrun]
  unfold Outcome.result Outcome.attempt
  cases first.ending with
  | ok below =>
      match below with
      | [] => simp only [List.append_nil, List.reverse_reverse]
      | [out] => simp only [List.append_nil, List.reverse_reverse]
      | _ :: _ :: _ => simp only [List.append_nil, List.reverse_reverse]
  | error reason => simp only [List.append_nil, List.reverse_reverse]

/-- A search passes over the outcomes that are cycles. It ends at the first
    one that is not, or at the last of all. -/
theorem search_spec (setting : List Digit)
    (h : (Plan.walk f tokens builder [] root).Fits setting) :
    ∃ (setting' : List Digit) (cycles later : List (Outcome T N Tok (List Out)))
      (last : Outcome T N Tok (List Out)),
      (Plan.walk f tokens builder [] root).outcomesFrom setting = cycles ++ last :: later ∧
      (∀ o ∈ cycles, o.ending = .error .cycle) ∧
      (last.ending = .error .cycle → later = []) ∧
      search f tokens builder root setting = (cycles ++ [last]).map Outcome.attempt ∧
      (Plan.walk f tokens builder [] root).Leads setting' last later := by
  -- The search goes on only from a cycle, and only as long as the odometer
  -- does.
  fun_induction search f tokens builder root setting with
  | case1 setting tried hcycle next hnext ih =>
      -- The odometer goes on, and the search with it.
      rcases Plan.run_spec _ setting h with ⟨first, later, hleads⟩
      have htried : tried = first.attempt := attempt_spec hleads
      rw [htried] at hcycle hnext
      rcases hleads.next hnext with ⟨hfits, hlater⟩
      rcases ih hfits with
        ⟨setting', cycles, later', last, houtcomes, hcycles, hend, hsearch, hlast⟩
      refine ⟨setting', first :: cycles, later', last, ?_, ?_, hend, ?_, hlast⟩
      · rw [hleads.outcomes, ← hlater, houtcomes, List.cons_append]
      · intro o ho
        rcases List.mem_cons.mp ho with rfl | ho
        · exact Outcome.attempt_ending_eq_cycle_iff.mp hcycle
        · exact hcycles o ho
      · rw [hsearch, htried]
        rfl
  | case2 setting tried hcycle hnext =>
      rcases Plan.run_spec _ setting h with ⟨first, later, hleads⟩
      have htried : tried = first.attempt := attempt_spec hleads
      rw [htried] at hnext
      refine ⟨setting, [], later, first, hleads.outcomes, fun _ ho => absurd ho List.not_mem_nil,
        fun _ => hleads.last hnext, ?_, hleads⟩
      rw [htried]
      rfl
  | case3 setting tried hcycle =>
      rcases Plan.run_spec _ setting h with ⟨first, later, hleads⟩
      have htried : tried = first.attempt := attempt_spec hleads
      rw [htried] at hcycle
      refine ⟨setting, [], later, first, hleads.outcomes, fun _ ho => absurd ho List.not_mem_nil,
        fun hending => ?_, ?_, hleads⟩
      · exact absurd (Outcome.attempt_ending_eq_cycle_iff.mpr hending) hcycle
      · rw [htried]
        rfl

end

/-- An enumeration has still to come to these outcomes. -/
def Awaits (e : Enumeration T N Tok Out) (outcomes : List (Outcome T N Tok (List Out))) : Prop :=
  match e.upcoming with
  | none => outcomes = []
  | some (root, setting) =>
    (Plan.walk e.forest e.tokens e.builder [] root).Fits setting ∧
      (Plan.walk e.forest e.tokens e.builder [] root).outcomesFrom setting = outcomes

/-- What an enumeration gives, one at a time, until there is nothing left. It
    does not fail. -/
inductive Yields : Enumeration T N Tok Out → List Out → Prop where
  | nil {e : Enumeration T N Tok Out} (built : e.next.1.built? = none)
      (sane : e.next.1.isFaulty = false) : Yields e []
  | cons {e : Enumeration T N Tok Out} {out : Out} {rest : List Out}
      (built : e.next.1.built? = some out) (later : Yields e.next.2 rest) :
      Yields e (out :: rest)

/-- What an enumeration gives when it goes on after having gone on `count`
    times before. -/
def given? (e : Enumeration T N Tok Out) : Nat → Option Out
  | 0 => e.next.1.built?
  | count + 1 => e.next.2.given? count

/-- A search goes on only from a cycle, and only for as long as the odometer
    does. -/
theorem search_eq_append (f : Forest T N) (tokens : List Tok) (builder : Builder T N Tok Out)
    (root : NodeId) (setting : List Digit) :
    ∃ (pruned : List (Attempt T N Tok Out)) (last : Attempt T N Tok Out),
      search f tokens builder root setting = pruned ++ [last] ∧
      (∀ tried ∈ pruned, tried.ending = .halted .cycle) ∧
      (last.ending = .halted .cycle → Odometer.advance last.digits = none) := by
  fun_induction search f tokens builder root setting with
  | case1 setting tried hcycle next hnext ih =>
      rcases ih with ⟨pruned, last, hsearch, hpruned, hlast⟩
      refine ⟨tried :: pruned, last, by rw [hsearch, List.cons_append], fun other hother => ?_,
        hlast⟩
      rcases List.mem_cons.mp hother with rfl | hother
      · exact hcycle
      · exact hpruned other hother
  | case2 setting tried hcycle hnext =>
      exact ⟨[], tried, rfl, fun _ h => absurd h List.not_mem_nil, fun _ => hnext⟩
  | case3 setting tried hcycle =>
      exact ⟨[], tried, rfl, fun _ h => absurd h List.not_mem_nil, fun h => absurd h hcycle⟩

/-- All that going on does. At its end an enumeration makes no attempt and stays
    as it is. Otherwise it makes attempts that run into cycles, and one more. If
    that one has built something, this is given, and if not, the enumeration is
    at its end. -/
theorem next_cases (e : Enumeration T N Tok Out) :
    e.upcoming = none ∧ e.next = (⟨[]⟩, e) ∨
      ∃ pruned last, e.next.1.attempts = pruned ++ [last] ∧
        (∀ tried ∈ pruned, tried.ending = .halted .cycle) ∧
        ((∃ out, last.ending = .built out ∧ e.next.1.built? = some out) ∨
          ∃ reason, last.ending = .halted reason ∧ e.next.1.built? = none ∧
            (e.next.1.isFaulty = true ↔ reason = .fault) ∧ e.next.2.upcoming = none) := by
  rcases e with ⟨f, tokens, builder, upcoming⟩
  cases upcoming with
  | none => exact Or.inl ⟨rfl, rfl⟩
  | some start =>
      rcases start with ⟨root, setting⟩
      rcases search_eq_append f tokens builder root setting with
        ⟨pruned, last, hsearch, hpruned, hlast⟩
      refine Or.inr ⟨pruned, last, hsearch, hpruned, ?_⟩
      simp only [next, hsearch, Pull.built?_concat, Pull.isFaulty_concat, following?_concat]
      cases hending : last.ending with
      | built out => exact Or.inl ⟨out, rfl, rfl⟩
      | halted reason =>
          refine Or.inr ⟨reason, rfl, rfl, ?_⟩
          cases reason with
          | cycle =>
              -- The search has gone on for as long as the odometer does.
              simp only [hlast hending, Option.map_none, Bool.false_eq_true, reduceCtorEq, and_self]
          | fault => exact ⟨iff_of_true rfl rfl, rfl⟩

/-- What an enumeration gives next has been built by the last of its attempts,
    and those before it have run into cycles. -/
theorem attempts_of_built? {e : Enumeration T N Tok Out} {out : Out}
    (h : e.next.1.built? = some out) :
    ∃ (pruned : List (Attempt T N Tok Out)) (last : Attempt T N Tok Out),
      e.next.1.attempts = pruned ++ [last] ∧
      (∀ tried ∈ pruned, tried.ending = .halted .cycle) ∧ last.ending = .built out := by
  rcases e.next_cases with ⟨_, hnext⟩ |
    ⟨pruned, last, hattempts, hpruned, ⟨out', hlast, hbuilt⟩ | ⟨reason, _, hbuilt, _⟩⟩
  · rw [hnext] at h
    cases h
  · rw [h, Option.some.injEq] at hbuilt
    subst hbuilt
    exact ⟨pruned, last, hattempts, hpruned, hlast⟩
  · rw [h] at hbuilt
    cases hbuilt

/-- An enumeration that has given nothing is at its end. -/
theorem upcoming_next {e : Enumeration T N Tok Out} (h : e.next.1.built? = none) :
    e.next.2.upcoming = none := by
  rcases e.next_cases with ⟨hend, hnext⟩ |
    ⟨_, _, _, _, ⟨out, _, hbuilt⟩ | ⟨reason, _, _, _, hupcoming⟩⟩
  · rw [hnext]
    exact hend
  · rw [h] at hbuilt
    cases hbuilt
  · exact hupcoming

theorem given?_of_upcoming {e : Enumeration T N Tok Out} (h : e.upcoming = none) (count : Nat) :
    e.given? count = none := by
  induction count with
  | zero =>
      rw [given?, next_of_upcoming h]
      rfl
  | succ count ih =>
      rw [given?, next_of_upcoming h]
      exact ih

/-- What an enumeration gives is given in order, and nothing after it. -/
theorem given?_of_yields {e : Enumeration T N Tok Out} {outs : List Out} (h : e.Yields outs)
    (count : Nat) : e.given? count = outs[count]? := by
  induction h generalizing count with
  | nil built sane =>
      cases count with
      | zero => exact built
      | succ count => exact given?_of_upcoming (upcoming_next built) count
  | cons built later ih =>
      cases count with
      | zero => exact built
      | succ count => exact ih count

/-- Going on to the next derivation passes over outcomes that are cycles and
    gives what the one behind them has built. -/
theorem Awaits.next {e : Enumeration T N Tok Out} {outcomes : List (Outcome T N Tok (List Out))}
    (h : e.Awaits outcomes) (hregular : ∀ o ∈ outcomes, o.Regular) :
    e.next.1.built? = none ∧ e.next.1.isFaulty = false ∧ outcomes.filterMap Outcome.only? = [] ∨
      ∃ out later, e.next.1.built? = some out ∧ e.next.2.Awaits later ∧
        (∀ o ∈ later, o ∈ outcomes) ∧
        outcomes.filterMap Outcome.only? = out :: later.filterMap Outcome.only? := by
  rcases e with ⟨f, tokens, builder, upcoming⟩
  cases upcoming with
  | none =>
      have hnil : outcomes = [] := h
      subst hnil
      exact Or.inl ⟨rfl, rfl, rfl⟩
  | some start =>
      rcases start with ⟨root, setting⟩
      rcases h with ⟨hfits, houtcomes⟩
      rcases search_spec setting hfits with
        ⟨setting', cycles, later, last, hsplit, hcycles, hend, hsearch, hlast⟩
      simp only at houtcomes hsplit hsearch hlast
      rw [houtcomes] at hsplit
      subst hsplit
      -- The outcomes passed over have built nothing.
      have hskip : cycles.filterMap Outcome.only? = [] := by
        refine List.filterMap_eq_nil_iff.mpr fun o ho => ?_
        simp only [Outcome.only?, hcycles o ho]
      rw [List.filterMap_append, hskip, List.nil_append]
      rw [List.map_append, List.map_singleton] at hsearch
      simp only [Enumeration.next, hsearch, Pull.built?_concat, Pull.isFaulty_concat,
        following?_concat]
      rcases hregular last (List.mem_append_right _ List.mem_cons_self) with ⟨out, hout⟩ | hcycle
      · -- The last walk has built something, and the setting goes on.
        refine Or.inr ⟨out, later, ?_, ?_, fun o ho => ?_, ?_⟩
        · simp only [Outcome.attempt, hout]
        · simp only [Outcome.attempt, hout, Awaits]
          cases hadvance : Odometer.advance last.digits with
          | none => exact hlast.last hadvance
          | some digits => exact hlast.next hadvance
        · exact List.mem_append_right _ (List.mem_cons_of_mem _ ho)
        · rw [List.filterMap_cons]
          simp only [Outcome.only?, hout]
      · -- The last walk has run into a cycle, so it was the last of all.
        refine Or.inl ⟨?_, ?_, ?_⟩
        · simp only [Outcome.attempt, hcycle]
        · simp only [Outcome.attempt, hcycle]
        · rw [hend hcycle, List.filterMap_cons, List.filterMap_nil]
          simp only [Outcome.only?, hcycle]

/-- An enumeration gives what the outcomes to which it has still to come have
    built. -/
theorem Awaits.yields {e : Enumeration T N Tok Out} {outcomes : List (Outcome T N Tok (List Out))}
    (h : e.Awaits outcomes) (hregular : ∀ o ∈ outcomes, o.Regular) :
    e.Yields (outcomes.filterMap Outcome.only?) := by
  -- By induction on what is still to be given. Each time the enumeration goes
  -- on, it is one less.
  generalize houts : outcomes.filterMap Outcome.only? = outs
  induction outs generalizing e outcomes with
  | nil =>
      rcases h.next hregular with ⟨hbuilt, hsane, _⟩ | ⟨out, later, _, _, _, hcons⟩
      · exact .nil hbuilt hsane
      · rw [houts] at hcons
        cases hcons
  | cons out rest ih =>
      rcases h.next hregular with ⟨_, _, hnil⟩ | ⟨out', later, hbuilt, hlater, hmem, hcons⟩
      · rw [houts] at hnil
        cases hnil
      · rw [houts] at hcons
        cases hcons
        exact .cons hbuilt (ih hlater (fun o ho => hregular o (hmem o ho)) rfl)

/-- What regular outcomes have built, one thing each. -/
theorem filterMap_only? {outcomes : List (Outcome T N Tok (List Out))}
    (h : ∀ o ∈ outcomes, o.Regular) :
    outcomes.filterMap Outcome.only? = (outcomes.filterMap Outcome.built?).flatten := by
  induction outcomes with
  | nil => rfl
  | cons o rest ih =>
      have hrest := ih fun o' ho' => h o' (List.mem_cons_of_mem _ ho')
      rw [List.filterMap_cons, List.filterMap_cons, hrest]
      rcases h o List.mem_cons_self with ⟨out, hout⟩ | hcycle
      · simp only [Outcome.only?, Outcome.built?, hout]
        rfl
      · simp only [Outcome.only?, Outcome.built?, hcycle]

/-- From a node that is no part of a rule's body, with a token for every
    position of its span, an enumeration of a sound forest gives the
    derivations that nested loops list, and in their order. -/
theorem yields_nested {g : Grammar T N} {input : List T} {f : Forest T N}
    (hsound : f.Sound g input) {root : NodeId} {label : Label T N} {span : Span}
    (hhas : f.Has root label span) (hlabel : label.isIntermediate = false) {tokens : List Tok}
    (htokens : span.stop ≤ tokens.length) (builder : Builder T N Tok Out) :
    ∃ e, ofRoot f (some root) tokens builder = .ok e ∧
      e.Yields (nested f tokens builder [] root).flatten := by
  have hends := Plan.ends_walk hsound builder [] hhas htokens
  -- What is made below the root is one thing, as the root is no part of a body.
  have hregular : ∀ o ∈ (Plan.walk f tokens builder [] root).outcomes, o.Regular := by
    intro o ho
    have hone := hends o ho
    unfold Outcome.Regular
    revert hone
    cases o.ending with
    | ok below =>
        intro hone
        rcases List.length_eq_one_iff.mp (hone hlabel) with ⟨out, rfl⟩
        exact Or.inl ⟨out, rfl⟩
    | error reason =>
        rintro rfl
        exact Or.inr rfl
  have hawaits : Awaits ⟨f, tokens, builder, some (root, [])⟩
      (Plan.walk f tokens builder [] root).outcomes :=
    ⟨Plan.fits_nil _, Plan.outcomesFrom_nil _⟩
  refine ⟨⟨f, tokens, builder, some (root, [])⟩, ?_, ?_⟩
  · rcases hhas with ⟨families, hnode⟩
    exact ofRoot_eq_ok_iff.mpr ⟨rfl, _, hnode, hlabel, htokens⟩
  · have hyields := hawaits.yields hregular
    rwa [filterMap_only? hregular, ← Plan.built, Plan.built_walk] at hyields

end Enumeration

end EarleyForest
