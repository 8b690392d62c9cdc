/-!
# Odometers

A derivation is fixed by the family chosen at each packed node that it
visits. These choices, in the order of the visits, are the digits of an
odometer, the last one turning fastest. The number of digits is not fixed:
another choice may lead past other packed nodes, and then later digits come
and go.

## Main definitions

* `Digit`: A choice among several families.
* `Odometer.advance`: The next setting of the digits.
* `Odometer.room`: A bound on the settings still to come.

## Theorems

* `room_append_le`: Digits that are added leave no more room.
* `room_advance_lt`: Advancing leaves less room.
-/

namespace EarleyForest

/-- A choice among `count` families, counted from zero. -/
structure Digit where
  taken : Nat
  count : Nat
deriving DecidableEq

namespace Odometer

/-- The next setting. The last digit that can go on does so, and those behind
    it are dropped. There is none once no digit can go on. -/
def advance : List Digit → Option (List Digit)
  | [] => none
  | digit :: rest =>
    match advance rest with
    | some rest => some (digit :: rest)
    | none =>
      if digit.taken + 1 < digit.count then some [{ digit with taken := digit.taken + 1 }]
      else none

/-- A bound on the number of settings behind a given one that have at most
    `places` digits, as long as added digits choose among at most `width`
    families: the turns left to the digits, read as a number to the base
    `width + 1` in which absent digits have `width` turns left. -/
def room (width : Nat) : Nat → List Digit → Nat
  | 0, _ => 0
  | places + 1, [] => width * Nat.pow (width + 1) places + room width places []
  | places + 1, digit :: rest =>
    (digit.count - 1 - digit.taken) * Nat.pow (width + 1) places + room width places rest

theorem room_nil_add_one (width places : Nat) :
    room width places [] + 1 = Nat.pow (width + 1) places := by
  induction places with
  | zero => rfl
  | succ places ih =>
      rw [room, Nat.add_assoc, ih, ← Nat.succ_mul]
      exact Nat.mul_comm _ _

/-- Digits that are added leave no more room. -/
theorem room_append_le (width : Nat) (added : List Digit) (h : ∀ d ∈ added, d.count ≤ width)
    (places : Nat) (digits : List Digit) :
    room width places (digits ++ added) ≤ room width places digits := by
  induction digits generalizing places with
  | cons digit rest ih =>
      cases places with
      | zero => exact Nat.le_refl _
      | succ places => exact Nat.add_le_add_left (ih places) _
  | nil =>
      induction added generalizing places with
      | nil => exact Nat.le_refl _
      | cons digit rest ih =>
          cases places with
          | zero => exact Nat.le_refl _
          | succ places =>
              -- A place that was empty had `width` turns left and now has fewer.
              have hdigit := h digit List.mem_cons_self
              have hrest := ih (fun d hd => h d (List.mem_cons_of_mem _ hd)) places
              refine Nat.add_le_add (Nat.mul_le_mul_right _ ?_) hrest
              omega

/-- Advancing leaves less room, and so it does when the digits before it had
    others behind them. -/
theorem room_advance_lt (width : Nat) (behind : List Digit) (digits next : List Digit)
    (h : advance digits = some next) (places : Nat) (hp : digits.length ≤ places) :
    room width places next < room width places (digits ++ behind) := by
  induction digits generalizing next places with
  | nil => simp only [advance, reduceCtorEq] at h
  | cons digit rest ih =>
      cases places with
      | zero => exact absurd hp (Nat.not_succ_le_zero _)
      | succ places =>
          have hlength := Nat.le_of_succ_le_succ hp
          simp only [advance] at h
          split at h
          · -- A later digit turns; this one stays.
            rename_i later hrest
            cases h
            exact Nat.add_lt_add_left (ih later hrest places hlength) _
          · split at h
            · -- This digit turns, which costs more than all later ones,
              -- now absent, can give back.
              rename_i hturn
              cases h
              have hnil := room_nil_add_one width places
              have hturns : digit.count - 1 - digit.taken
                  = digit.count - 1 - (digit.taken + 1) + 1 := by omega
              simp only [List.cons_append, room, hturns, Nat.add_mul, Nat.one_mul]
              omega
            · simp only [reduceCtorEq] at h

end Odometer

end EarleyForest
