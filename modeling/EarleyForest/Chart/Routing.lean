import EarleyForest.Chart.Parse

/-!
# Routing New Items

What becomes of a new item is told by what it expects. If it expects a
terminal, it waits for the shift when that terminal comes next, and is dropped
when another one does. Every other item is put on the agenda.

This is decided at three places: for the rules of the start symbol, for the
offers made while a column is worked on, and for the items that a shift moves
on into a column that is not open yet. The items of such a column are listed
only when it is opened, and then all of them are, whatever they expect.

A shift relies on the items it is handed. It looks at each of them again, and
one that does not expect the terminal ends the parse.

## Main definitions

* `Intake`, `Intake.put`: What is there of a column that is not open yet.
* `Front.update`: Takes an item into the open column.
* `Misrouted`: An item that a shift has been handed by mistake.
* `Stage.shift?`: A shift that looks at the items it is handed.
* `Stage.routed`, `Grammar.parse?`: A parse with such shifts.
-/

namespace EarleyForest

variable {T N : Type}

/-- What is there of a column that is not open yet. -/
structure Intake where
  column : Column
  /-- The items of the column that expect its next terminal, in order. -/
  shifting : List Item

namespace Intake

/-- Nothing. -/
def empty : Intake := ⟨.empty, []⟩

/-- Takes an item in, after a look at what it expects. Nothing is put on an
    agenda, which the column does not have yet. -/
def put [DecidableEq T] (g : Grammar T N) (lookahead : Option T) (intake : Intake)
    (item : Item) : Intake :=
  match item.next? g with
  | some (.terminal t) =>
    if lookahead = some t ∧ intake.column.contains item.rule item.dot item.origin = false then
      ⟨intake.column.add item, intake.shifting ++ [item]⟩
    else intake
  | _ =>
    if intake.column.contains item.rule item.dot item.origin then intake
    else { intake with column := intake.column.add item }

end Intake

/-- An item that a shift has been handed though it does not expect the
    terminal: what there is to report. -/
structure Misrouted (T N : Type) where
  item : Item
  terminal : T
  /-- The position of the column that is left. -/
  position : Nat
  /-- What the item expects, if anything. -/
  expected : Option (Symbol T N)
  rule : Option (Rule T N)
deriving DecidableEq

namespace Front

/-- Opens a column with what is there of it. All of its items are listed. -/
def fill (s : Front T N) (intake : Intake) : Front T N :=
  { s with column := intake.column, agenda := intake.column.items, shifting := intake.shifting }

/-- Takes an item into the open column, after a look at what it expects. -/
def update [DecidableEq T] (g : Grammar T N) (s : Front T N) (item : Item) : Front T N :=
  match item.next? g with
  | some (.terminal t) =>
    if s.lookahead = some t ∧ s.column.contains item.rule item.dot item.origin = false then
      { s with column := s.column.add item, shifting := s.shifting ++ [item] }
    else s
  | _ =>
    if s.column.contains item.rule item.dot item.origin then s
    else { s with column := s.column.add item, agenda := s.agenda ++ [item] }

/-- Moves items on over the leaf of a terminal that ends at the open column,
    from the column one position before. Each of them is looked at first, and
    is taken in before the next one is looked at. -/
def shiftAll? [DecidableEq T] [DecidableEq N] (g : Grammar T N) (s : Front T N) (terminal : T)
    (leaf : NodeId) :
    Intake → Forest T N → List Item → Except (Misrouted T N) (Intake × Forest T N)
  | intake, f, [] => .ok (intake, f)
  | intake, f, item :: rest =>
    if item.next? g = some (.terminal terminal) then
      let (node, f) := s.join g f item leaf
      shiftAll? g s terminal leaf (intake.put g s.lookahead (item.moved node)) f rest
    else .error ⟨item, terminal, s.position - 1, item.next? g, g.rules[item.rule]?⟩

end Front

namespace Stage

variable [DecidableEq T] [DecidableEq N]

/-- The stage at position zero, with the rules of the start symbol. -/
def begin (g : Grammar T N) (lookahead : Option T) : Stage T N :=
  let items := (g.rulesFor g.start).map (Item.fresh 0)
  ⟨(Front.blank lookahead #[] 0).fill (items.foldl (Intake.put g lookahead) .empty), .empty⟩

/-- Processes the first item of the agenda. -/
def attend (g : Grammar T N) : Stage T N → Stage T N
  | ⟨front, forest⟩ =>
    match front.agenda with
    | [] => ⟨front, forest⟩
    | item :: rest =>
      let ⟨offers, nullable, forest⟩ := front.process g forest item
      ⟨offers.foldl (Front.update g) { front with agenda := rest, nullable }, forest⟩

/-- Does so a number of times, as long as there is work. -/
def attendFor (g : Grammar T N) : Nat → Stage T N → Stage T N
  | 0, s => s
  | n + 1, s => if s.front.agenda.isEmpty then s else attendFor g n (s.attend g)

/-- Processes items until none is left. -/
def leave (g : Grammar T N) (s : Stage T N) : Stage T N :=
  s.attendFor g (capacity g s.front.position)

/-- Opens the column behind the next terminal, if all items that have been put
    down for the shift expect this terminal. -/
def shift? (g : Grammar T N) (terminal : T) (lookahead : Option T) :
    Stage T N → Except (Misrouted T N) (Stage T N)
  | ⟨front, forest⟩ => do
    let leaf := forest.size
    let blank : Front T N := .blank lookahead (front.closed.push front.column) leaf
    let forest := forest.grow (.terminal terminal) ⟨front.position, blank.position⟩
    let (intake, forest) ← blank.shiftAll? g terminal leaf .empty forest front.shifting
    return ⟨blank.fill intake, forest⟩

/-- The stage of a parse at which the column at a position is left. -/
def routed (g : Grammar T N) (input : List T) : Nat → Except (Misrouted T N) (Stage T N)
  | 0 => return (begin g input[0]?).leave g
  | position + 1 => do
    let s ← routed g input position
    match input[position]? with
    | none => return s
    | some terminal => return (← s.shift? g terminal input[position + 1]?).leave g

end Stage

/-- Parses an input, with a look at each item that is shifted. -/
def Grammar.parse? [DecidableEq T] [DecidableEq N] (g : Grammar T N) (input : List T) :
    Except (Misrouted T N) (Parse T N) := do
  return (← Stage.routed g input input.length).toParse g

end EarleyForest
