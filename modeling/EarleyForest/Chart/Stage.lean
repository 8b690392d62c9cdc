import EarleyForest.Chart.Front

/-!
# The Course of a Parse

A parse goes through the input from left to right. At each position it
processes the items of the open column until none is left to process; then
the items that expect the next terminal move on over it into a new column.

## Main definitions

* `Stage`: The columns and the forest so far.
* `Stage.step`: Processes one item.
* `Stage.close`: Processes items until none is left.
* `Stage.shift`: Opens the column behind the next terminal.
* `Stage.run`: Goes through an input.
-/

namespace EarleyForest

variable {T N : Type}

/-- The columns and the forest so far. -/
structure Stage (T N : Type) where
  front : Front T N
  forest : Forest T N

namespace Stage

variable [DecidableEq T] [DecidableEq N]

/-- Processes the first item of the agenda. -/
def step (g : Grammar T N) : Stage T N → Stage T N
  | ⟨front, forest⟩ =>
    match front.agenda with
    | [] => ⟨front, forest⟩
    | item :: rest =>
      let ⟨offers, nullable, forest⟩ := front.process g forest item
      ⟨{ front with agenda := rest, nullable }.offerAll g offers, forest⟩

/-- Repeats the step a number of times, as long as there is work. -/
def stepFor (g : Grammar T N) : Nat → Stage T N → Stage T N
  | 0, s => s
  | n + 1, s => if s.front.agenda.isEmpty then s else stepFor g n (s.step g)

/-- The number of items that the column at a position can hold: one for each
    place of a dot and each origin. -/
def capacity (g : Grammar T N) (position : Nat) : Nat :=
  (position + 1) * g.rules.foldr (fun r dots => r.body.length + 1 + dots) 0

/-- Processes items until none is left. Every item of a column is processed
    at most once, so the column's capacity bounds the number of steps. -/
def close (g : Grammar T N) (s : Stage T N) : Stage T N :=
  s.stepFor g (capacity g s.front.position)

/-- The stage at position zero: the start symbol's rules have been offered. -/
def start (g : Grammar T N) (lookahead : Option T) : Stage T N :=
  ⟨(Front.blank lookahead #[] 0).offerAll g ((g.rulesFor g.start).map (Item.fresh 0)), .empty⟩

/-- Opens the column behind the next terminal: the items that expected it
    move on over a leaf made for it, and are offered to the new column. -/
def shift (g : Grammar T N) (terminal : T) (lookahead : Option T) : Stage T N → Stage T N
  | ⟨front, forest⟩ =>
    let leaf := forest.size
    let blank : Front T N := .blank lookahead (front.closed.push front.column) leaf
    let forest := forest.grow (.terminal terminal) ⟨front.position, blank.position⟩
    let (moved, forest) := blank.moveAll g leaf forest front.shifting
    ⟨blank.offerAll g moved, forest⟩

/-- Goes through the rest of the input. The column behind it is left open. -/
def run (g : Grammar T N) : Stage T N → List T → Stage T N
  | s, [] => s
  | s, terminal :: rest => run g ((s.close g).shift g terminal rest.head?) rest

end Stage

end EarleyForest
