import EarleyForest.Bnf.Report

/-!
# The Merged Table of the Notation

The smallest table for the grammar of the notation: states with the same rules
and dots are one. Only the state behind a name loses something by that. A name
may be the head of a production or an atom in a body, and what comes behind the
one is not what comes behind the other, but the state has entries for both.

Tokens are named as the grammar of the notation writes them, the kinds with one
word by that word in quotes, and the others by an expression for their words.

## Main definitions

* `Spot`: The states of the table.
* `Spot.cores`, `Spot.items`: The rules under way in a state, and the items.
* `Spot.moves`: The states behind a state.
* `Spot.goto?`, `Spot.reduce?`: What is done in a state.
* `merged`: The table.
* `Spot.stop?`: The state in which a parser with this table stops.
* `Generated.merged`: The parser of this table, with a wording.
-/

namespace EarleyForest

namespace Bnf

/-- The states of the table, by what has been read. -/
inductive Spot where
  | beginning
  | finished
  | someProductions
  | firstProduction
  | nextProduction
  | head
  | defined
  | alternatives
  | ended
  | barred
  | firstBody
  | nextBody
  | lone
  | atoms
  | firstAtom
  | nextAtom
  | nameAtom
  | quotedAtom
  | name
  | quoted
deriving DecidableEq

namespace Spot

/-- The rules under way, each with the number of symbols read of its body. Rules
    of which nothing has been read stand behind those that call for them. -/
def cores : Spot → List (Nat × Nat)
  | beginning => [(0, 0), (1, 0), (2, 0), (4, 0), (3, 0), (5, 0), (15, 0)]
  | finished => [(0, 1)]
  | someProductions => [(2, 1), (4, 1), (5, 0), (15, 0)]
  | firstProduction => [(3, 1)]
  | nextProduction => [(4, 2)]
  | head => [(5, 1)]
  | defined => [(5, 2), (7, 0), (6, 0), (8, 0), (9, 0), (10, 0), (12, 0), (11, 0), (13, 0), (14, 0),
      (15, 0), (16, 0)]
  | alternatives => [(5, 3), (7, 1)]
  | ended => [(5, 4)]
  | barred => [(7, 2), (8, 0), (9, 0), (10, 0), (12, 0), (11, 0), (13, 0), (14, 0), (15, 0),
      (16, 0)]
  | firstBody => [(6, 1)]
  | nextBody => [(7, 3)]
  | lone => [(8, 1)]
  | atoms => [(10, 1), (12, 1), (13, 0), (14, 0), (15, 0), (16, 0)]
  | firstAtom => [(11, 1)]
  | nextAtom => [(12, 2)]
  | nameAtom => [(13, 1)]
  | quotedAtom => [(14, 1)]
  | name => [(15, 1)]
  | quoted => [(16, 1)]

/-- What may come behind a phrase, wherever it stands. -/
def follow : Phrase → List (Option Token.Kind)
  | .whole | .rules => [none]
  | .productions | .production => [none, some .name]
  | .alternatives | .body => [some .semicolon, some .bar]
  | .atoms | .atom | .quoted => [some .semicolon, some .bar, some .quoted, some .name]
  | .name => [some .defines, some .semicolon, some .bar, some .quoted, some .name]

/-- What may come behind a phrase that is under way in a state. Where a name is
    yet to be read, it is known what it will be. -/
def aheads : Spot → Phrase → List (Option Token.Kind)
  | beginning, .name | someProductions, .name => [some .defines]
  | defined, .name | barred, .name | atoms, .name => follow .atom
  | _, phrase => follow phrase

/-- The items of a state. -/
def items (s : Spot) : List (Table.Item Token.Kind) :=
  s.cores.flatMap fun (rule, dot) =>
    grammar.rules[rule]?.toList.flatMap fun r =>
      (s.aheads r.head).map fun ahead => ⟨rule, dot, ahead⟩

/-- The states behind a state, each with the symbol that is read in between. -/
def moves : Spot → List (Symbol Token.Kind Phrase × Spot)
  | beginning => [(.nonterminal .rules, finished), (.nonterminal .productions, someProductions),
      (.nonterminal .production, firstProduction), (.nonterminal .name, head),
      (.terminal .name, name)]
  | someProductions => [(.nonterminal .production, nextProduction), (.nonterminal .name, head),
      (.terminal .name, name)]
  | head => [(.terminal .defines, defined)]
  | defined => [(.nonterminal .alternatives, alternatives), (.nonterminal .body, firstBody),
      (.terminal .epsilon, lone), (.nonterminal .atoms, atoms), (.nonterminal .atom, firstAtom),
      (.nonterminal .name, nameAtom), (.nonterminal .quoted, quotedAtom), (.terminal .name, name),
      (.terminal .quoted, quoted)]
  | alternatives => [(.terminal .semicolon, ended), (.terminal .bar, barred)]
  | barred => [(.nonterminal .body, nextBody), (.terminal .epsilon, lone),
      (.nonterminal .atoms, atoms), (.nonterminal .atom, firstAtom), (.nonterminal .name, nameAtom),
      (.nonterminal .quoted, quotedAtom), (.terminal .name, name), (.terminal .quoted, quoted)]
  | atoms => [(.nonterminal .atom, nextAtom), (.nonterminal .name, nameAtom),
      (.nonterminal .quoted, quotedAtom), (.terminal .name, name), (.terminal .quoted, quoted)]
  | finished | firstProduction | nextProduction | ended | firstBody | nextBody | lone | firstAtom
  | nextAtom | nameAtom | quotedAtom | name | quoted => []

/-- The state behind one more symbol. -/
def goto? (s : Spot) (symbol : Symbol Token.Kind Phrase) : Option Spot :=
  (s.moves.find? (·.1 = symbol)).map (·.2)

/-- The rule that ends in a state, if this comes next. -/
def reduce? (s : Spot) (ahead : Option Token.Kind) : Option Nat :=
  (s.items.find? fun item =>
    item.ahead = ahead ∧ grammar.symbolAt? item.rule item.dot = none).map Table.Item.rule

end Spot

/-- The table whose states are merged as far as their rules and dots allow. -/
@[reducible]
def merged : Table Token.Kind Phrase where
  State := Spot
  start := .beginning
  goto? := Spot.goto?
  reduce? := Spot.reduce?

namespace Spot

/-- The stack when there is nothing more to reduce, if it takes fewer than
    `limit` reductions. -/
def settle? (ahead : Option Token.Kind) : Nat → List Spot → Option (List Spot)
  | 0, _ => none
  | limit + 1, stack =>
    match merged.reduced? grammar ahead stack with
    | none => some stack
    | some next => settle? ahead limit next

/-- The stack when there is nothing more to reduce. It takes no more reductions
    than five for the state on top, and one for each state below. -/
def settled? (ahead : Option Token.Kind) (stack : List Spot) : Option (List Spot) :=
  settle? ahead (stack.length + 5) stack

/-- The stack behind one more token. -/
def shift? (stack : List Spot) (kind : Token.Kind) : Option (List Spot) :=
  (settled? (some kind) stack).bind fun settled =>
    match settled with
    | [] => none
    | s :: below => (s.goto? (.terminal kind)).map (· :: s :: below)

/-- The state in which the parser stops behind some tokens, if this comes
    next. -/
def stop? (read : List Token.Kind) (found : Option Token.Kind) : Option Spot :=
  ((read.foldlM shift? [beginning]).bind (settled? found)).bind List.head?

end Spot

namespace Token.Kind

/-- All kinds, in the order in which they are listed. -/
def all : List Token.Kind := [defines, semicolon, bar, epsilon, quoted, name]

/-- A kind as the grammar of the notation writes it. -/
def text : Token.Kind → String
  | defines => "\"::=\""
  | semicolon => "\";\""
  | bar => "\"|\""
  | epsilon => "\"ε\""
  | quoted => "r#\"'[^']*'\"#"
  | name => "r#\"[A-Za-z_][A-Za-z0-9_]*\"#"

end Token.Kind

namespace Report

/-- What follows the first of several names in a list of them. -/
def furtherText : List String → String
  | [] => ""
  | [last] => " or " ++ last
  | next :: rest => ", " ++ next ++ furtherText rest

/-- A list of names as a line of its own. -/
def expectedText : List String → String
  | [] => ""
  | first :: rest => "\nExpected one of " ++ first ++ furtherText rest

/-- A report in words. -/
def text : Report → String
  | invalidToken offset => s!"Invalid token at {offset}"
  | unrecognizedToken text start stop expected =>
    s!"Unrecognized token `{text}` found at {start}:{stop}" ++ expectedText expected
  | unrecognizedEnd offset expected =>
    s!"Unrecognized EOF found at {offset}" ++ expectedText expected

end Report

/-- The parser of the merged table. -/
def Generated.merged : Generated where
  table := Bnf.merged
  name := Token.Kind.text
  expected read found :=
    (Spot.stop? read found).toList.flatMap fun s =>
      (Token.Kind.all.filter fun kind => Bnf.merged.acts s (some kind)).map Token.Kind.text
  wording := Report.text

end Bnf

end EarleyForest
