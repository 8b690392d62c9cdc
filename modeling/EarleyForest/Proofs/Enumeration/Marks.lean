import EarleyForest.Proofs.Enumeration.Survey

/-!
# Digits and Their Nodes

A digit says which of how many ways to take, but not at which node. What node
it is read at is told by the walk, and the walk goes by the digits before it.
So it is not plain that a digit is read where it was made, as the odometer goes
on and the walks become longer and shorter.

To say that it is, a record is kept. Each digit comes with the node at which it
was made, and the walk notes at which node it was read. No part of the walk
looks at the record, so without it the walk is what it was.

That the two nodes are the same is seen from the ways that are open. A setting
fits them if its digits answer the choices in their order, each for the node
and with the number of ways that the choice has. The marks at the end of a walk
from such a setting fit too, and so they do when the odometer has advanced
them: the digits before the last one are as they were, so they lead to the same
node.

## Main definitions

* `Mark`, `Reading`, `Record`: Digits with their nodes, and what is noted.
* `Odometer.advanceMarks`: The odometer with the nodes of its digits.
* `Route`: A plan that says at which node each choice is made.
* `Route.run`, `Route.forget`: A walk that keeps a record, and that walk without
  the record.
* `Route.Fits`, `Route.marks`: Settings that fit, and the marks at the end.
* `Route.Sited`: Choices are made at nodes that have as many families.
* `Route.walk`: The walk below a node, with its choices left open.

## Theorems

* `forget_run`, `forget_run_walk`: The record has no part in the walk.
* `Fits.run`: A walk from a setting that fits reads each digit at the node at
  which the digit was made, and leaves none unread.
* `Fits.isPrefix`, `Fits.marks`, `Fits.advance`: What fits once goes on to fit.
* `Fits.sited`, `sited_walk`: The nodes of the digits have as many families.
-/

namespace EarleyForest

variable {T N Tok Out α β : Type}

/-- A digit, and the node at which it was made. -/
structure Mark where
  digit : Digit
  node : NodeId
deriving DecidableEq

/-- A mark, and the node at which it was read. -/
structure Reading where
  mark : Mark
  node : NodeId
deriving DecidableEq

/-- A trail on which the digits have their nodes. -/
structure Record (T N Tok : Type) where
  /-- The digits read, the latest first. -/
  read : List Reading
  /-- The digits still to be read. -/
  ahead : List Mark
  /-- The builder's calls, the latest first. -/
  calls : List (Call T N Tok)

namespace Record

/-- The trail without the nodes. -/
def trail (record : Record T N Tok) : Trail T N Tok :=
  ⟨record.read.map fun reading => reading.mark.digit, record.ahead.map Mark.digit, record.calls⟩

/-- All digits, whether they have been read or not. -/
def marks (record : Record T N Tok) : List Mark :=
  (record.read.map Reading.mark).reverse ++ record.ahead

end Record

namespace Odometer

/-- The next setting. The digits in it keep their nodes. -/
def advanceMarks : List Mark → Option (List Mark)
  | [] => none
  | mark :: rest =>
    match advanceMarks rest with
    | some rest => some (mark :: rest)
    | none =>
      if mark.digit.taken + 1 < mark.digit.count then
        some [{ mark with digit := { mark.digit with taken := mark.digit.taken + 1 } }]
      else none

/-- Without the nodes it is the next setting of the digits. -/
theorem map_advanceMarks (marks : List Mark) :
    (advanceMarks marks).map (List.map Mark.digit) = advance (marks.map Mark.digit) := by
  induction marks with
  | nil => rfl
  | cons mark rest ih =>
      rw [List.map_cons, advance, ← ih, advanceMarks]
      cases advanceMarks rest with
      | some later => rfl
      | none =>
          simp only [Option.map_none]
          split
          · rfl
          · rfl

end Odometer

/-- A plan that says at which node each choice is made. -/
inductive Route (T N Tok α : Type) where
  | done (a : α)
  | halt (reason : Halt)
  | note (call : Call T N Tok) (rest : Route T N Tok α)
  /-- There is one way more than `turns`. -/
  | fork (node : NodeId) (turns : Nat) (way : Nat → Route T N Tok α)

/-- A plan all of whose choices are made at one node. -/
def Plan.routeAt (node : NodeId) : Plan T N Tok α → Route T N Tok α
  | done a => .done a
  | halt reason => .halt reason
  | note call rest => .note call (rest.routeAt node)
  | fork turns way => .fork node turns fun taken => (way taken).routeAt node

namespace Route

/-- One route after another. -/
def bind : Route T N Tok α → (α → Route T N Tok β) → Route T N Tok β
  | done a, next => next a
  | halt reason, _ => halt reason
  | note call rest, next => note call (rest.bind next)
  | fork node turns way, next => fork node turns fun taken => (way taken).bind next

/-- The plan without the nodes. -/
def plan : Route T N Tok α → Plan T N Tok α
  | done a => .done a
  | halt reason => .halt reason
  | note call rest => .note call rest.plan
  | fork _ turns way => .fork turns fun taken => (way taken).plan

/-- Reads the next digit at a node, or makes one there that takes the first of
    `count` families. -/
def digit (node : NodeId) (count : Nat) : EStateM Halt (Record T N Tok) Nat := fun record =>
  match record.ahead with
  | [] => .ok 0 { record with read := ⟨⟨⟨0, count⟩, node⟩, node⟩ :: record.read }
  | mark :: rest =>
    .ok mark.digit.taken { record with read := ⟨mark, node⟩ :: record.read, ahead := rest }

/-- The walk that a setting makes of a route, with a record. -/
def run : Route T N Tok α → EStateM Halt (Record T N Tok) α
  | done a => pure a
  | halt reason => throw reason
  | note call rest => do
    modify fun record => { record with calls := call :: record.calls }
    rest.run
  | fork node turns way => do
    let taken ← digit node (turns + 1)
    (way taken).run

/-- The end of a walk without the record. -/
def forget : EStateM.Result Halt (Record T N Tok) α → EStateM.Result Halt (Trail T N Tok) α
  | .ok a record => .ok a record.trail
  | .error reason record => .error reason record.trail

/-- The record that a walk leaves behind. -/
def recordAfter : EStateM.Result Halt (Record T N Tok) α → Record T N Tok
  | .ok _ record => record
  | .error _ record => record

theorem trailAfter_forget (result : EStateM.Result Halt (Record T N Tok) α) :
    Walk.trailAfter (forget result) = (recordAfter result).trail := by
  cases result with
  | ok a record => rfl
  | error reason record => rfl

theorem plan_bind (r : Route T N Tok α) (next : α → Route T N Tok β) :
    (r.bind next).plan = r.plan.bind fun a => (next a).plan := by
  induction r with
  | done a => rfl
  | halt reason => rfl
  | note call rest ih => simp only [bind, plan, Plan.bind, ih]
  | fork node turns way ih => simp only [bind, plan, Plan.bind, ih]

theorem plan_routeAt (node : NodeId) (p : Plan T N Tok α) : (p.routeAt node).plan = p := by
  induction p with
  | done a => rfl
  | halt reason => rfl
  | note call rest ih => simp only [Plan.routeAt, plan, ih]
  | fork turns way ih => simp only [Plan.routeAt, plan, ih]

/-- The record has no part in the walk. -/
theorem forget_run (r : Route T N Tok α) (record : Record T N Tok) :
    forget (r.run record) = r.plan.run record.trail := by
  induction r generalizing record with
  | done a => rfl
  | halt reason => rfl
  | note call rest ih => exact ih _
  | fork node turns way ih =>
      rcases record with ⟨read, ahead, calls⟩
      cases ahead with
      | nil => exact ih 0 _
      | cons mark rest => exact ih mark.digit.taken _

/-- A setting leads into a route: its digits answer the choices to be made, each
    at the node at which it was made, and none is left over. -/
inductive Fits : Route T N Tok α → List Mark → Prop where
  | done (a : α) : Fits (.done a) []
  | halt (reason : Halt) : Fits (.halt reason) []
  | note {call : Call T N Tok} {rest : Route T N Tok α} {setting : List Mark}
      (later : Fits rest setting) : Fits (.note call rest) setting
  /-- The choice has no digit yet. -/
  | unset {node : NodeId} {turns : Nat} {way : Nat → Route T N Tok α}
      (later : Fits (way 0) []) : Fits (.fork node turns way) []
  /-- The choice has a digit. -/
  | set {node : NodeId} {turns : Nat} {way : Nat → Route T N Tok α} {mark : Mark}
      {rest : List Mark} (site : mark.node = node) (count : mark.digit.count = turns + 1)
      (taken : mark.digit.taken ≤ turns) (later : Fits (way mark.digit.taken) rest) :
      Fits (.fork node turns way) (mark :: rest)

/-- The digits at the end of a walk: those of the setting, and those made where
    it ends. -/
def marks : Route T N Tok α → List Mark → List Mark
  | done _, _ => []
  | halt _, _ => []
  | note _ rest, setting => rest.marks setting
  | fork node turns way, [] => ⟨⟨0, turns + 1⟩, node⟩ :: (way 0).marks []
  | fork _ _ way, mark :: rest => mark :: (way mark.digit.taken).marks rest

theorem fits_nil (r : Route T N Tok α) : r.Fits [] := by
  induction r with
  | done a => exact .done a
  | halt reason => exact .halt reason
  | note call rest ih => exact .note ih
  | fork node turns way ih => exact .unset (ih 0)

section

variable {r : Route T N Tok α} {setting : List Mark}

/-- The setting is kept, and digits are made behind it. -/
theorem Fits.isPrefix (h : r.Fits setting) : setting <+: r.marks setting := by
  induction h with
  | done a => exact List.nil_prefix
  | halt reason => exact List.nil_prefix
  | note later ih => exact ih
  | unset later ih => exact List.nil_prefix
  | set site count taken later ih => exact List.cons_prefix_cons.mpr ⟨rfl, ih⟩

/-- The digits at the end of a walk fit the route. -/
theorem Fits.marks (h : r.Fits setting) : r.Fits (r.marks setting) := by
  induction h with
  | done a => exact .done a
  | halt reason => exact .halt reason
  | note later ih => exact .note ih
  | unset later ih => exact .set rfl rfl (Nat.zero_le _) ih
  | set site count taken later ih => exact .set site count taken ih

/-- When the odometer advances, the setting goes on to fit: the digit that turns
    is read at the node at which it was made, because the digits before it stay,
    and there is none behind it. -/
theorem Fits.advance (h : r.Fits setting) {next : List Mark}
    (hnext : Odometer.advanceMarks setting = some next) : r.Fits next := by
  induction h generalizing next with
  | done a => cases hnext
  | halt reason => cases hnext
  | note later ih => exact .note (ih hnext)
  | unset later ih => cases hnext
  | @set node turns way mark rest site count taken later ih =>
      rw [Odometer.advanceMarks] at hnext
      split at hnext
      · -- A later digit turns, on the same way.
        rename_i hlater
        cases hnext
        exact .set site count taken (ih hlater)
      · split at hnext
        · rename_i hturn
          cases hnext
          have hturns : mark.digit.taken + 1 ≤ turns := by omega
          exact .set site count hturns (fits_nil _)
        · cases hnext

/-- A walk from a setting that fits reads the digits in their order and leaves
    none ahead. Each is read at the node at which it was made. -/
theorem Fits.run (h : r.Fits setting) (read : List Reading) (calls : List (Call T N Tok)) :
    ∃ calls', recordAfter (r.run ⟨read, setting, calls⟩) =
      ⟨((r.marks setting).map fun mark => ⟨mark, mark.node⟩).reverse ++ read, [], calls'⟩ := by
  induction h generalizing read calls with
  | done a => exact ⟨calls, rfl⟩
  | halt reason => exact ⟨calls, rfl⟩
  | @note call rest setting later ih => exact ih read (call :: calls)
  | @unset node turns way later ih =>
      rcases ih (⟨⟨⟨0, turns + 1⟩, node⟩, node⟩ :: read) calls with ⟨calls', hrun⟩
      refine ⟨calls', ?_⟩
      rw [Route.marks, List.map_cons, List.reverse_cons, List.append_assoc, List.singleton_append]
      exact hrun
  | @set node turns way mark rest site count taken later ih =>
      rw [← site]
      rcases ih (⟨mark, mark.node⟩ :: read) calls with ⟨calls', hrun⟩
      refine ⟨calls', ?_⟩
      rw [Route.marks, List.map_cons, List.reverse_cons, List.append_assoc, List.singleton_append]
      exact hrun

end

/-- Each choice is made at a node that has as many families as there are ways. -/
def Sited (f : Forest T N) : Route T N Tok α → Prop
  | done _ => True
  | halt _ => True
  | note _ rest => rest.Sited f
  | fork node turns way =>
    (∃ n, f.node? node = some n ∧ n.families.length = turns + 1) ∧ ∀ taken, (way taken).Sited f

section

variable {f : Forest T N}

/-- The digits of a setting that fits can turn as often as their nodes have
    families. -/
theorem Fits.sited {r : Route T N Tok α} {setting : List Mark} (h : r.Fits setting)
    (hsited : r.Sited f) : ∀ mark ∈ setting, mark.digit.taken < mark.digit.count ∧
      ∃ n, f.node? mark.node = some n ∧ n.families.length = mark.digit.count := by
  induction h with
  | done a => exact fun _ hmark => absurd hmark List.not_mem_nil
  | halt reason => exact fun _ hmark => absurd hmark List.not_mem_nil
  | note later ih => exact ih hsited
  | unset later ih => exact fun _ hmark => absurd hmark List.not_mem_nil
  | set site count taken later ih =>
      refine List.forall_mem_cons.mpr ⟨⟨?_, ?_⟩, ih (hsited.2 _)⟩
      · omega
      · rw [site, count]
        exact hsited.1

theorem Sited.bind {r : Route T N Tok α} {next : α → Route T N Tok β} (h : r.Sited f)
    (hnext : ∀ a, (next a).Sited f) : (r.bind next).Sited f := by
  induction r with
  | done a => exact hnext a
  | halt reason => trivial
  | note call rest ih => exact ih h
  | fork node turns way ih => exact ⟨h.1, fun taken => ih taken (h.2 taken)⟩

end

/-- The route of the walk below a node. `path` holds the nodes above it. -/
def walk (f : Forest T N) (tokens : List Tok) (builder : Builder T N Tok Out)
    (path : List NodeId) (id : NodeId) : Route T N Tok (List Out) :=
  match _hnode : f.node? id with
  | none => halt .fault
  | some node =>
    match node.label with
    | .terminal t => (Plan.leaf tokens builder t node.span).routeAt id
    | _ =>
      if _hpath : id ∈ path then halt .cycle
      else ((Plan.choose node.families).routeAt id).bind fun family =>
        (match family with
          | .epsilon => done []
          | .unary child => walk f tokens builder (id :: path) child
          | .binary left right =>
            (walk f tokens builder (id :: path) left).bind fun before =>
              (walk f tokens builder (id :: path) right).bind fun behind =>
                done (before ++ behind)).bind fun below =>
          (Plan.finish builder node family below).routeAt id
termination_by f.unvisited path
decreasing_by all_goals exact Forest.unvisited_cons_lt _hnode _hpath

section

variable (f : Forest T N) (tokens : List Tok) (builder : Builder T N Tok Out)

/-- Without the nodes it is a plan of the walk. -/
theorem run_plan_walk (path : List NodeId) (id : NodeId) :
    (walk f tokens builder path id).plan.run = Walk.walk f tokens builder path id := by
  fun_induction walk f tokens builder path id with
  | case1 path id hnode =>
      rw [Walk.walk_missing hnode]
      rfl
  | case2 path id node hnode t hlabel =>
      rw [Walk.walk_leaf hnode hlabel, plan_routeAt, Plan.run_leaf]
  | case3 path id node hnode hpath hlabel =>
      rw [Walk.walk_cycle hnode hlabel hpath]
      rfl
  | case4 path id node hnode hpath hlabel ih =>
      -- The same choice is made, and the same children are gone through.
      rw [Walk.walk_inner hnode hlabel hpath, plan_bind, Plan.run_bind, plan_routeAt,
        Plan.run_choose]
      refine congrArg (Walk.choose node.families >>= ·) (funext fun family => ?_)
      rw [plan_bind, Plan.run_bind]
      have hfinish : (fun below => ((Plan.finish builder node family below).routeAt id).plan.run) =
          Walk.finish builder node family :=
        funext fun below => by rw [plan_routeAt, Plan.run_finish]
      rw [hfinish]
      cases family with
      | epsilon => rfl
      | unary child => simp only [ih]
      | binary left right =>
          simp only [plan_bind, Plan.run_bind, ih]
          rfl

/-- Without the record the walk of the route is the walk below the node. -/
theorem forget_run_walk (path : List NodeId) (id : NodeId) (record : Record T N Tok) :
    forget ((walk f tokens builder path id).run record) =
      Walk.walk f tokens builder path id record.trail := by
  rw [forget_run, run_plan_walk]

/-- A walk makes its choices at nodes that have as many families. -/
theorem sited_walk (path : List NodeId) (id : NodeId) :
    (walk f tokens builder path id).Sited f := by
  fun_induction walk f tokens builder path id with
  | case1 path id hnode => trivial
  | case2 path id node hnode t hlabel =>
      unfold Plan.leaf
      cases tokens[node.span.start]? <;> trivial
  | case3 path id node hnode hpath hlabel => trivial
  | case4 path id node hnode hpath hlabel ih =>
      have hchoose : ((Plan.choose node.families : Plan T N Tok Family).routeAt id).Sited f := by
        cases hfamilies : node.families with
        | nil => trivial
        | cons first others =>
            cases others with
            | nil => trivial
            | cons second rest =>
                refine ⟨⟨node, hnode, by rw [hfamilies]; rfl⟩, fun taken => ?_⟩
                simp only
                cases (first :: second :: rest)[taken]? <;> trivial
      refine hchoose.bind fun family => Sited.bind ?_ fun below => ?_
      · cases family with
        | epsilon => trivial
        | unary child => exact ih child
        | binary left right => exact (ih left).bind fun before => (ih right).bind fun _ => trivial
      · unfold Plan.finish
        cases node.label <;> cases family <;> trivial

end

end Route

end EarleyForest
