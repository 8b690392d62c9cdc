import EarleyForest.Forest.Traversal
import EarleyForest.Parser.Basic

/-!
# Showing Charts and Forests

Items, columns and forests as text. An item is shown as its rule with a dot
in the body, followed by its origin:

    (S → a•A b B, 0)

A forest is shown one node a line, as the ways to derive it, each node once
and before those below it. Nodes without a way to derive them have no line.

Items and forests know rules by their indices only. Shown by a parser with
another grammar they may refer to a rule, or to a place in its body, that the
grammar does not have; they have no text then.

## Main definitions

* `Parser.dotted?`: A rule with a dot in its body.
* `Parser.itemText?`, `Parser.labelText?`: An item and a node's label.
* `Parser.tableText?`: Columns of a chart.
* `Parser.forestText?`: The nodes of a forest below a root.
-/

namespace EarleyForest

variable {T N : Type} [DecidableEq N]

namespace Parser

/-- A symbol of a body. -/
def symbolText (p : Parser T N) : Symbol T N → String
  | .terminal t => p.spelling.terminal t
  | .nonterminal n => p.spelling.nonterminal n

/-- Symbols of a body with a space between two of them. -/
def symbolsText (p : Parser T N) (symbols : List (Symbol T N)) : String :=
  " ".intercalate (symbols.map p.symbolText)

/-- A rule with a dot behind the first `dot` symbols of its body. -/
def dotted? (p : Parser T N) (rule dot : Nat) : Option String :=
  match p.grammar.rules[rule]? with
  | none => none
  | some r =>
    if dot ≤ r.body.length then
      some (p.spelling.nonterminal r.head ++ " → " ++ p.symbolsText (r.body.take dot) ++ "•" ++
        p.symbolsText (r.body.drop dot))
    else none

/-- An item. -/
def itemText? (p : Parser T N) (item : Item) : Option String :=
  (p.dotted? item.rule item.dot).map fun dotted => s!"({dotted}, {item.origin})"

/-- The label of a node. -/
def labelText? (p : Parser T N) : Label T N → Option String
  | .terminal t => some (p.spelling.terminal t)
  | .nonterminal n => some (p.spelling.nonterminal n)
  | .intermediate rule dot => (p.dotted? rule dot).map fun dotted => s!"({dotted})"

/-- A column with its number, one item a line. -/
def columnText? (p : Parser T N) (number : Nat) (column : Column) : Option String :=
  (column.items.mapM p.itemText?).map fun items =>
    s!"column {number}\n" ++ String.join (items.map fun item => s!"  {item}\n")

/-- Columns, numbered from zero. -/
def tableText? (p : Parser T N) (columns : List Column) : Option String :=
  (columns.zipIdx.mapM fun (column, number) => p.columnText? number column).map String.join

/-- A node as others refer to it: its label and its span. -/
def nodeText? (p : Parser T N) (node : Node T N) : Option String :=
  (p.labelText? node.label).map fun label => s!"{label}[{node.span.start}..{node.span.stop}]"

/-- One way to derive a node, as its children. -/
def familyText? (p : Parser T N) (f : Forest T N) (family : Family) : Option String :=
  match family with
  | .epsilon => some "ε"
  | _ => (family.children.mapM fun id => (f.node? id).bind p.nodeText?).map (" ".intercalate ·)

/-- A node and all ways to derive it. -/
def lineText? (p : Parser T N) (f : Forest T N) (node : Node T N) : Option String := do
  let subject ← p.nodeText? node
  let families ← node.families.mapM (p.familyText? f)
  some (subject ++ " := " ++ " | ".intercalate families ++ "\n")

/-- The nodes below a root, one a line, or nothing without a root. -/
def forestText? (p : Parser T N) (f : Forest T N) (root : Option NodeId) : Option String :=
  let nodes := (root.toList.flatMap f.preorder).filter fun entry => ¬ entry.2.families.isEmpty
  (nodes.mapM fun entry => p.lineText? f entry.2).map String.join

end Parser

end EarleyForest
