import EarleyForest.Enumeration.Walk

/-!
# Searching for the Next Derivation

Not every setting of the odometer gives a derivation: the walk that it leads
through may run into a cycle. Then the odometer advances and the walk starts
anew from the root. The settings tried one after the other leave less and less
room, so the search ends with a derivation or with no setting left.

## Main definitions

* `Attempt`: One walk and how it ended.
* `attempt`: Tries one setting.
* `search`: Tries settings until one gives a derivation.

## Theorems

* `room_advance_attempt_lt`: A setting tried after another leaves less room.
-/

namespace EarleyForest

/-- How a walk ended. -/
inductive Ending (Out : Type) where
  | built (out : Out)
  | halted (reason : Halt)

/-- One walk and how it ended. -/
structure Attempt (T N Tok Out : Type) where
  ending : Ending Out
  /-- The digits of the derivation, or of its part before the walk halted. -/
  digits : List Digit
  /-- The calls of the builder, in order. -/
  calls : List (Call T N Tok)

namespace Enumeration

variable {T N Tok Out : Type}

/-- Walks the derivation to which a setting leads. A root that is no part of a
    rule's body makes one thing. -/
def attempt (f : Forest T N) (tokens : List Tok) (builder : Builder T N Tok Out)
    (root : NodeId) (setting : List Digit) : Attempt T N Tok Out :=
  match Walk.walk f tokens builder [] root ⟨[], setting, []⟩ with
  | .ok [out] trail => ⟨.built out, trail.read.reverse ++ trail.ahead, trail.calls.reverse⟩
  | .ok _ trail => ⟨.halted .fault, trail.read.reverse, trail.calls.reverse⟩
  | .error halt trail => ⟨.halted halt, trail.read.reverse, trail.calls.reverse⟩

/-- A number of digits that no walk exceeds. -/
def places (f : Forest T N) : Nat := Nat.pow 2 (f.unvisited []) - 1

/-- A setting tried after another one, at which the walk ran into a cycle,
    leaves less room. -/
theorem room_advance_attempt_lt (f : Forest T N) (tokens : List Tok)
    (builder : Builder T N Tok Out) (root : NodeId) (setting next : List Digit)
    (hcycle : (attempt f tokens builder root setting).ending = .halted .cycle)
    (hnext : Odometer.advance (attempt f tokens builder root setting).digits = some next) :
    Odometer.room f.familyCount (places f) next
      < Odometer.room f.familyCount (places f) setting := by
  rcases Walk.reads_walk f tokens builder [] root ⟨[], setting, []⟩ with
    ⟨added, hdigits, hcount, hlength⟩
  have hadded := Odometer.room_append_le f.familyCount added hcount (places f) setting
  unfold attempt at hcycle hnext
  split at hnext
  · rename_i hwalk
    simp only [hwalk, reduceCtorEq] at hcycle
  · rename_i outs trail hwalk
    split at hcycle <;> simp only [Ending.halted.injEq, reduceCtorEq] at hcycle
    simp_all only [reduceCtorEq]
  · -- The digits read and those left ahead are the setting and what the walk
    -- added. Advancing the former leaves less room than all of them do.
    rename_i halt trail hwalk
    simp only [hwalk, Walk.trailAfter, List.reverse_nil, List.nil_append, List.length_nil,
      Nat.zero_add] at hdigits hlength
    rw [← hdigits] at hadded
    refine Nat.lt_of_lt_of_le (Odometer.room_advance_lt _ trail.ahead _ _ hnext _ ?_) hadded
    rw [List.length_reverse]
    exact hlength

/-- Tries settings one after the other, from the given one on, until a walk
    does not run into a cycle. The last attempt ends with what was built, with
    a fault, or in a cycle if no setting is left. -/
def search (f : Forest T N) (tokens : List Tok) (builder : Builder T N Tok Out)
    (root : NodeId) (setting : List Digit) : List (Attempt T N Tok Out) :=
  let tried := attempt f tokens builder root setting
  match _hcycle : tried.ending with
  | .halted .cycle =>
    match _hnext : Odometer.advance tried.digits with
    | some next => tried :: search f tokens builder root next
    | none => [tried]
  | _ => [tried]
termination_by Odometer.room f.familyCount (places f) setting
decreasing_by exact room_advance_attempt_lt f tokens builder root setting next _hcycle _hnext

end Enumeration

end EarleyForest
