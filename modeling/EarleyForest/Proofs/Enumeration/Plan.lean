import EarleyForest.Enumeration.Walk

/-!
# Plans

A plan is a walk whose choices are left open. A setting of the odometer makes
one walk of it; all its walks together are its outcomes, in the order in which
the odometer comes to them.

The odometer knows nothing of the plan but the digits of the walk before. They
are enough: each digit read says how many ways there were, and no digit is
left over. So advancing the digits of one outcome gives a setting that fits
the plan again, and the walk that it leads through is the next outcome.

## Main definitions

* `Plan`: A walk with its choices left open.
* `Plan.run`: The walk that a setting makes of a plan.
* `Plan.outcomes`, `Plan.outcomesFrom`: All outcomes, and those from a setting
  on.
* `Plan.built`: What the outcomes build.
* `Plan.Ends`: What all outcomes have in common.

## Theorems

* `run_bind`, `built_bind`, `Ends.bind`: One plan after another.
* `run_spec`: A walk ends with the first outcome from its setting on, and the
  odometer goes on to the second one.
-/

namespace EarleyForest

variable {T N Tok α β : Type}

/-- A walk with its choices left open. -/
inductive Plan (T N Tok α : Type) where
  | done (a : α)
  | halt (reason : Halt)
  | note (call : Call T N Tok) (rest : Plan T N Tok α)
  /-- There is one way more than `turns`. -/
  | fork (turns : Nat) (way : Nat → Plan T N Tok α)

/-- How a walk through a plan ends. -/
structure Outcome (T N Tok α : Type) where
  ending : Except Halt α
  /-- The choices made, in order. -/
  digits : List Digit
  /-- The calls of the builder, in order. -/
  calls : List (Call T N Tok)

namespace Outcome

/-- The outcome with one more call before the others. -/
def called (call : Call T N Tok) (o : Outcome T N Tok α) : Outcome T N Tok α :=
  { o with calls := call :: o.calls }

/-- The outcome with one more choice before the others. -/
def behind (digit : Digit) (o : Outcome T N Tok α) : Outcome T N Tok α :=
  { o with digits := digit :: o.digits }

/-- What the walk has built, unless it has halted. -/
def built? (o : Outcome T N Tok α) : Option α :=
  match o.ending with
  | .ok a => some a
  | .error _ => none

/-- How the walk ends if these digits have been read and these calls made
    before, the latest first. -/
def result (o : Outcome T N Tok α) (read : List Digit) (calls : List (Call T N Tok)) :
    EStateM.Result Halt (Trail T N Tok) α :=
  match o.ending with
  | .ok a => .ok a ⟨o.digits.reverse ++ read, [], o.calls.reverse ++ calls⟩
  | .error reason => .error reason ⟨o.digits.reverse ++ read, [], o.calls.reverse ++ calls⟩

theorem result_called (call : Call T N Tok) (o : Outcome T N Tok α) (read : List Digit)
    (calls : List (Call T N Tok)) :
    (o.called call).result read calls = o.result read (call :: calls) := by
  simp only [result, called, List.reverse_cons, List.append_assoc, List.singleton_append]

theorem result_behind (digit : Digit) (o : Outcome T N Tok α) (read : List Digit)
    (calls : List (Call T N Tok)) :
    (o.behind digit).result read calls = o.result (digit :: read) calls := by
  simp only [result, behind, List.reverse_cons, List.append_assoc, List.singleton_append]

end Outcome

namespace Plan

/-- One plan after another. -/
def bind : Plan T N Tok α → (α → Plan T N Tok β) → Plan T N Tok β
  | done a, next => next a
  | halt reason, _ => halt reason
  | note call rest, next => note call (rest.bind next)
  | fork turns way, next => fork turns fun taken => (way taken).bind next

/-- The walk that a setting makes of a plan. -/
def run : Plan T N Tok α → Walk T N Tok α
  | done a => pure a
  | halt reason => throw reason
  | note call rest => do
    Walk.note call
    rest.run
  | fork turns way => do
    let taken ← Walk.digit (turns + 1)
    (way taken).run

/-- All outcomes, in the order of their digits. -/
def outcomes : Plan T N Tok α → List (Outcome T N Tok α)
  | done a => [⟨.ok a, [], []⟩]
  | halt reason => [⟨.error reason, [], []⟩]
  | note call rest => rest.outcomes.map (Outcome.called call)
  | fork turns way => (List.range (turns + 1)).flatMap fun taken =>
    (way taken).outcomes.map (Outcome.behind ⟨taken, turns + 1⟩)

/-- The outcomes from a setting on. -/
def outcomesFrom : Plan T N Tok α → List Digit → List (Outcome T N Tok α)
  | done a, _ => [⟨.ok a, [], []⟩]
  | halt reason, _ => [⟨.error reason, [], []⟩]
  | note call rest, setting => (rest.outcomesFrom setting).map (Outcome.called call)
  | fork turns way, [] => (fork turns way).outcomes
  | fork turns way, digit :: rest =>
    ((way digit.taken).outcomesFrom rest).map (Outcome.behind digit) ++
      (List.range' (digit.taken + 1) (turns - digit.taken)).flatMap fun taken =>
        (way taken).outcomes.map (Outcome.behind ⟨taken, turns + 1⟩)

/-- A setting leads into a plan: its digits answer the choices to be made, and
    none is left over. -/
def Fits : Plan T N Tok α → List Digit → Prop
  | done _, setting => setting = []
  | halt _, setting => setting = []
  | note _ rest, setting => rest.Fits setting
  | fork _ _, [] => True
  | fork turns way, digit :: rest =>
    digit.count = turns + 1 ∧ digit.taken ≤ turns ∧ (way digit.taken).Fits rest

/-- What the outcomes build, in order. -/
def built (p : Plan T N Tok α) : List α := p.outcomes.filterMap Outcome.built?

/-- Every outcome that builds something builds something of this kind, and
    every other one halts for an allowed reason. -/
def Ends (p : Plan T N Tok α) (kind : α → Prop) (allowed : Halt → Prop) : Prop :=
  ∀ o ∈ p.outcomes, match o.ending with
    | .ok a => kind a
    | .error reason => allowed reason

theorem run_bind (p : Plan T N Tok α) (next : α → Plan T N Tok β) :
    (p.bind next).run = p.run >>= fun a => (next a).run := by
  induction p with
  | done a => rfl
  | halt reason => rfl
  | note call rest ih => simp only [bind, run, ih, bind_assoc]
  | fork turns way ih => simp only [bind, run, ih, bind_assoc]

theorem built_done (a : α) : (done a : Plan T N Tok α).built = [a] := rfl

theorem built_note (call : Call T N Tok) (rest : Plan T N Tok α) :
    (note call rest).built = rest.built := by
  simp only [built, outcomes, List.filterMap_map]
  rfl

theorem built_fork (turns : Nat) (way : Nat → Plan T N Tok α) :
    (fork turns way).built = (List.range (turns + 1)).flatMap fun taken => (way taken).built := by
  simp only [built, outcomes, List.filterMap_flatMap, List.filterMap_map]
  rfl

/-- Plans one after the other build in the order of two nested loops. -/
theorem built_bind (p : Plan T N Tok α) (next : α → Plan T N Tok β) :
    (p.bind next).built = p.built.flatMap fun a => (next a).built := by
  induction p with
  | done a => simp only [bind, built_done, List.flatMap_cons, List.flatMap_nil, List.append_nil]
  | halt reason => rfl
  | note call rest ih => simp only [bind, built_note, ih]
  | fork turns way ih => simp only [bind, built_fork, ih, List.flatMap_assoc]

section

variable {kind : α → Prop} {other : β → Prop} {allowed : Halt → Prop}

theorem ends_done {a : α} (h : kind a) : (done a : Plan T N Tok α).Ends kind allowed := by
  intro o ho
  rw [List.mem_singleton.mp ho]
  exact h

theorem ends_halt {reason : Halt} (h : allowed reason) :
    (halt reason : Plan T N Tok α).Ends kind allowed := by
  intro o ho
  rw [List.mem_singleton.mp ho]
  exact h

theorem ends_note_iff {call : Call T N Tok} {rest : Plan T N Tok α} :
    (note call rest).Ends kind allowed ↔ rest.Ends kind allowed := by
  simp only [Ends, outcomes, List.mem_map, forall_exists_index, and_imp,
    forall_apply_eq_imp_iff₂, Outcome.called]

theorem ends_fork_iff {turns : Nat} {way : Nat → Plan T N Tok α} :
    (fork turns way).Ends kind allowed ↔ ∀ taken ≤ turns, (way taken).Ends kind allowed := by
  simp only [Ends, outcomes, List.mem_flatMap, List.mem_range, List.mem_map, forall_exists_index,
    and_imp, Nat.lt_succ_iff]
  -- The outcomes of a fork are those of its ways, behind one more digit.
  constructor
  · intro h taken htaken o ho
    exact h (o.behind ⟨taken, turns + 1⟩) taken htaken o ho rfl
  · intro h o taken htaken o' ho' ho
    subst ho
    exact h taken htaken o' ho'

theorem Ends.bind {p : Plan T N Tok α} {next : α → Plan T N Tok β} (h : p.Ends kind allowed)
    (hnext : ∀ a, kind a → (next a).Ends other allowed) : (p.bind next).Ends other allowed := by
  induction p with
  | done a => exact hnext a (h _ (List.mem_singleton_self _))
  | halt reason => exact ends_halt (h _ (List.mem_singleton_self _))
  | note call rest ih => exact ends_note_iff.mpr (ih (ends_note_iff.mp h))
  | fork turns way ih =>
      exact ends_fork_iff.mpr fun taken htaken => ih taken (ends_fork_iff.mp h taken htaken)

theorem Ends.mono {p : Plan T N Tok α} {wider : α → Prop} (h : p.Ends kind allowed)
    (hkind : ∀ a, kind a → wider a) : p.Ends wider allowed := by
  intro o ho
  have hold := h o ho
  revert hold
  cases o.ending with
  | ok a => exact hkind a
  | error reason => exact id

end

theorem fits_nil (p : Plan T N Tok α) : p.Fits [] := by
  induction p with
  | done a => rfl
  | halt reason => rfl
  | note call rest ih => exact ih
  | fork turns way => trivial

/-- Without any digits set the outcomes are all there are. -/
theorem outcomesFrom_nil (p : Plan T N Tok α) : p.outcomesFrom [] = p.outcomes := by
  induction p with
  | done a => rfl
  | halt reason => rfl
  | note call rest ih => simp only [outcomesFrom, outcomes, ih]
  | fork turns way => rfl

/-- An open choice takes the first way, as if a digit said so. -/
theorem outcomesFrom_fork_nil (turns : Nat) (way : Nat → Plan T N Tok α) :
    (fork turns way).outcomesFrom [] = (fork turns way).outcomesFrom [⟨0, turns + 1⟩] := by
  simp only [outcomesFrom, outcomes, outcomesFrom_nil, List.range_eq_range', List.range'_succ,
    List.flatMap_cons, Nat.sub_zero]

/-- The outcomes behind those of one way are those from the next way on. -/
theorem outcomesFrom_fork_turn {turns taken : Nat} (htaken : taken + 1 ≤ turns)
    (way : Nat → Plan T N Tok α) :
    (fork turns way).outcomesFrom [⟨taken + 1, turns + 1⟩] =
      (List.range' (taken + 1) (turns - taken)).flatMap fun taken =>
        (way taken).outcomes.map (Outcome.behind ⟨taken, turns + 1⟩) := by
  -- The first way from here on is the next one, and its outcomes are all there.
  have hsub : turns - taken = turns - (taken + 1) + 1 := by omega
  rw [hsub, List.range'_succ, List.flatMap_cons, outcomesFrom, outcomesFrom_nil]

/-- What `run_spec` says of a plan at one setting: the walk ends with the
    first outcome from the setting on, and the digits of that outcome advance
    to a setting from which on the others come, if there are others. -/
structure Leads (p : Plan T N Tok α) (setting : List Digit) (first : Outcome T N Tok α)
    (later : List (Outcome T N Tok α)) : Prop where
  outcomes : p.outcomesFrom setting = first :: later
  run (read : List Digit) (calls : List (Call T N Tok)) :
    p.run ⟨read, setting, calls⟩ = first.result read calls
  last : Odometer.advance first.digits = none → later = []
  next {digits : List Digit} : Odometer.advance first.digits = some digits →
    p.Fits digits ∧ p.outcomesFrom digits = later

/-- If the way that a digit takes leads to an outcome, so does the fork. -/
theorem Leads.fork {turns : Nat} {way : Nat → Plan T N Tok α} {digit : Digit}
    {rest : List Digit} (hcount : digit.count = turns + 1) (htaken : digit.taken ≤ turns)
    {first : Outcome T N Tok α} {later : List (Outcome T N Tok α)}
    (h : (way digit.taken).Leads rest first later) :
    ∃ later', (Plan.fork turns way).Leads (digit :: rest) (first.behind digit) later' := by
  -- Behind this outcome come the others of the same way, and then those of the
  -- ways that have not had their turn.
  refine ⟨later.map (Outcome.behind digit) ++
    (List.range' (digit.taken + 1) (turns - digit.taken)).flatMap fun taken =>
      (way taken).outcomes.map (Outcome.behind ⟨taken, turns + 1⟩), ?_, ?_, ?_, ?_⟩
  · rw [outcomesFrom, h.outcomes, List.map_cons, List.cons_append]
  · intro read calls
    rw [Outcome.result_behind]
    exact h.run (digit :: read) calls
  · intro hnone
    simp only [Outcome.behind, Odometer.advance] at hnone
    split at hnone
    · cases hnone
    · rename_i hrest
      split at hnone
      · cases hnone
      · -- No digit can go on, so this way has no more outcomes and is the last.
        have hzero : turns - digit.taken = 0 := by omega
        rw [h.last hrest, hzero]
        rfl
  · intro digits hsome
    simp only [Outcome.behind, Odometer.advance] at hsome
    split at hsome
    · -- A later digit turns, on the same way.
      rename_i rest' hrest
      cases hsome
      rcases h.next hrest with ⟨hfits, hlater⟩
      exact ⟨⟨hcount, htaken, hfits⟩, by rw [outcomesFrom, hlater]⟩
    · rename_i hrest
      split at hsome
      · -- This digit turns, and the next way starts with its first outcome.
        rename_i hturn
        cases hsome
        have hle : digit.taken + 1 ≤ turns := by omega
        refine ⟨⟨hcount, hle, fits_nil _⟩, ?_⟩
        rw [h.last hrest, List.map_nil, List.nil_append, hcount, outcomesFrom_fork_turn hle]
      · cases hsome

/-- A walk ends with the first outcome from its setting on, and the odometer
    goes on to the second one. -/
theorem run_spec (p : Plan T N Tok α) (setting : List Digit) (h : p.Fits setting) :
    ∃ first later, p.Leads setting first later := by
  -- By induction on the plan. A choice is answered by the first digit of the
  -- setting, or takes the first way if there is none.
  induction p generalizing setting with
  | done a =>
      have hnil : setting = [] := h
      subst hnil
      exact ⟨_, [], rfl, fun _ _ => rfl, fun _ => rfl, fun hsome => by cases hsome⟩
  | halt reason =>
      have hnil : setting = [] := h
      subst hnil
      exact ⟨_, [], rfl, fun _ _ => rfl, fun _ => rfl, fun hsome => by cases hsome⟩
  | note call rest ih =>
      rcases ih setting h with ⟨first, later, hleads⟩
      refine ⟨first.called call, later.map (Outcome.called call), ?_, ?_, ?_, ?_⟩
      · rw [outcomesFrom, hleads.outcomes, List.map_cons]
      · intro read calls
        rw [Outcome.result_called]
        exact hleads.run read (call :: calls)
      · intro hnone
        rw [hleads.last hnone, List.map_nil]
      · intro digits hsome
        rcases hleads.next hsome with ⟨hfits, hlater⟩
        exact ⟨hfits, by rw [outcomesFrom, hlater]⟩
  | fork turns way ih =>
      cases setting with
      | nil =>
          -- The walk adds the digit for the first way.
          rcases ih 0 [] (fits_nil _) with ⟨first, later, hleads⟩
          have hzero : (way (Digit.taken ⟨0, turns + 1⟩)).Leads [] first later := hleads
          rcases hzero.fork rfl (Nat.zero_le turns) with ⟨later', hfork⟩
          refine ⟨_, later', ?_, ?_, hfork.last, hfork.next⟩
          · rw [outcomesFrom_fork_nil]
            exact hfork.outcomes
          · exact hfork.run
      | cons digit rest =>
          rcases h with ⟨hcount, htaken, hfits⟩
          rcases ih digit.taken rest hfits with ⟨first, later, hleads⟩
          rcases hleads.fork hcount htaken with ⟨later', hfork⟩
          exact ⟨_, later', hfork⟩

end Plan

end EarleyForest
