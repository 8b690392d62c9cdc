import EarleyForest.Chart.Stage

/-!
# Parses

The outcome of parsing an input: a chart with one column for each position,
the forest of all derivations found on the way, and the node of the start
symbol over the whole input if there is one. Parsing never fails. An input
that the grammar does not derive has no root.

## Main definitions

* `Parse`: A chart, a forest and a root.
* `Grammar.parse`: Parses an input.
-/

namespace EarleyForest

variable {T N : Type}

/-- The outcome of parsing an input. -/
structure Parse (T N : Type) where
  /-- One column for each position of the input, from zero to its length. -/
  columns : List Column
  forest : Forest T N
  /-- The start symbol's node over the whole input. -/
  root : Option NodeId

namespace Parse

/-- The input has a derivation. -/
def accepted (p : Parse T N) : Bool := p.root.isSome

/-- The node that the root names. -/
def rootNode? (p : Parse T N) : Option (Node T N) := p.root.bind p.forest.node?

end Parse

/-- The item matches a rule of the start symbol from position zero on. -/
def Item.isFinal [DecidableEq N] (g : Grammar T N) (item : Item) : Bool :=
  match g.rules[item.rule]? with
  | none => false
  | some rule =>
    decide (rule.head = g.start) && decide (item.dot = rule.body.length) &&
      decide (item.origin = 0)

namespace Stage

/-- The start symbol's node over the input up to the current position. The
    item of an empty start rule has no node of its own; its node is looked up
    in the open column. -/
def root? [DecidableEq T] [DecidableEq N] (g : Grammar T N) (s : Stage T N) : Option NodeId :=
  (s.front.column.items.find? (Item.isFinal g)).bind fun item =>
    item.node.or (s.forest.find? s.front.mark (.nonterminal g.start) ⟨0, s.front.position⟩)

/-- The outcome when the input ends at the current position. -/
def toParse [DecidableEq T] [DecidableEq N] (g : Grammar T N) (s : Stage T N) : Parse T N :=
  ⟨s.front.closed.toList ++ [s.front.column], s.forest, s.root? g⟩

end Stage

namespace Grammar

/-- Parses an input. -/
def parse [DecidableEq T] [DecidableEq N] (g : Grammar T N) (input : List T) : Parse T N :=
  (((Stage.start g input.head?).run g input).close g).toParse g

end Grammar

end EarleyForest
