import EarleyForest.Chart.Item

/-!
# The Open Column

The chart is built column by column. The column at the current position
starts with some items and grows while its items are processed one by one:

* an item that expects a nonterminal offers the rules of that nonterminal;
* an item whose body is matched lets every item that expected its head, in
  the column where it began, move on over it;
* an item that expects a terminal waits for the step to the next position.

Offers are taken in one way only, wherever they come from. An item that
expects a terminal other than the next one of the input is dropped at once;
one that the column has already is dropped too; every other one joins the
column.

An item of this column may come to expect a nonterminal only after that
nonterminal has been matched over the empty span here. Such matches are
remembered for as long as the column is open, and the late item moves on over
them when it is processed.

The forest grows along with the items. A match of one symbol out of several
needs no node beyond the one of that symbol; every longer match gets the one
node of its label and span, with a family for the way in which it was found.

## Main definitions

* `Front`: The closed columns, the open one, and the work left in it.
* `Front.offer`: Takes an item into the open column.
* `Front.join`: The node of a match that is one symbol longer.
* `Front.moveAll`: Moves items over one node.
* `Front.process`: What one item gives rise to.
-/

namespace EarleyForest

variable {T N : Type}

/-- The closed columns, the open one, and the work left in it. -/
structure Front (T N : Type) where
  /-- The terminal behind the current position. -/
  lookahead : Option T
  /-- The columns before the current position. -/
  closed : Array Column
  /-- The column at the current position. -/
  column : Column
  /-- The items of the column that are still to be processed, in order. -/
  agenda : List Item
  /-- The items of the column that expect the next terminal, in order. -/
  shifting : List Item
  /-- The nonterminals matched over the empty span here, and their nodes. -/
  nullable : List (N × NodeId)
  /-- The size of the forest when the column was opened. -/
  mark : Nat

/-- What processing an item gives rise to. -/
structure Yield (T N : Type) where
  /-- The items offered to the open column, in order. -/
  offers : List Item
  /-- The nonterminals matched over the empty span by now. -/
  nullable : List (N × NodeId)
  /-- The forest with the nodes of the offers. -/
  forest : Forest T N

namespace Front

/-- A column without items behind some closed ones. -/
def blank (lookahead : Option T) (closed : Array Column) (mark : Nat) : Front T N :=
  ⟨lookahead, closed, .empty, [], [], [], mark⟩

/-- The position of the open column. -/
def position (s : Front T N) : Nat := s.closed.size

/-- The column at a position up to the current one. -/
def columnAt (s : Front T N) (position : Nat) : Column :=
  s.closed[position]?.getD s.column

/-- Takes an item into the open column, unless it is there already or expects
    a terminal that does not come next. -/
def offer [DecidableEq T] (g : Grammar T N) (s : Front T N) (item : Item) : Front T N :=
  if s.column.contains item.rule item.dot item.origin then s
  else
    match item.next? g with
    | some (.terminal t) =>
      if s.lookahead = some t then
        { s with column := s.column.add item, shifting := s.shifting ++ [item] }
      else s
    | _ => { s with column := s.column.add item, agenda := s.agenda ++ [item] }

/-- Offers items one after the other. -/
def offerAll [DecidableEq T] (g : Grammar T N) (s : Front T N) (items : List Item) :
    Front T N :=
  items.foldl (offer g) s

variable [DecidableEq T] [DecidableEq N]

/-- The node of an item's match made longer by one symbol, which the node
    `right` derives, and the forest with that node. -/
def join (g : Grammar T N) (s : Front T N) (f : Forest T N) (item : Item) (right : NodeId) :
    NodeId × Forest T N :=
  match g.rules[item.rule]? with
  | none => (right, f)
  | some rule =>
    if item.dot = 0 ∧ 1 < rule.body.length then (right, f)
    else
      let label :=
        if item.dot + 1 = rule.body.length then .nonterminal rule.head
        else .intermediate item.rule (item.dot + 1)
      let family :=
        match item.node with
        | none => .unary right
        | some left => .binary left right
      f.pack s.mark label ⟨item.origin, s.position⟩ family

/-- Moves the dots of items, one after the other, over a symbol that the node
    `right` derives. -/
def moveAll (g : Grammar T N) (s : Front T N) (right : NodeId) :
    Forest T N → List Item → List Item × Forest T N
  | f, [] => ([], f)
  | f, item :: rest =>
    let (node, f) := s.join g f item right
    let (moved, f) := moveAll g s right f rest
    (item.moved node :: moved, f)

/-- The node of a complete item. An item with an empty body gets one here. -/
def complete (s : Front T N) (f : Forest T N) (head : N) (item : Item) : NodeId × Forest T N :=
  match item.node with
  | some node => (node, f)
  | none => f.pack s.mark (.nonterminal head) ⟨s.position, s.position⟩ .epsilon

/-- What an item of the open column gives rise to. -/
def process (g : Grammar T N) (s : Front T N) (f : Forest T N) (item : Item) : Yield T N :=
  match g.rules[item.rule]? with
  | none => ⟨[], s.nullable, f⟩
  | some rule =>
    match rule.body[item.dot]? with
    | some (.terminal _) => ⟨[], s.nullable, f⟩
    | some (.nonterminal n) =>
      let predicted := (g.rulesFor n).map (Item.fresh s.position)
      match s.nullable.lookup n with
      | none => ⟨predicted, s.nullable, f⟩
      | some node =>
        let (moved, f) := s.moveAll g node f [item]
        ⟨predicted ++ moved, s.nullable, f⟩
    | none =>
      let (node, f) := s.complete f rule.head item
      let waiting := (s.columnAt item.origin).awaiting g rule.head
      let (moved, f) := s.moveAll g node f waiting
      if item.origin = s.position then ⟨moved, (rule.head, node) :: s.nullable, f⟩
      else ⟨moved, s.nullable, f⟩

end Front

end EarleyForest
