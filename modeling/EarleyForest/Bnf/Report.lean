import EarleyForest.Bnf.Phrase
import EarleyForest.Grammar.Table

/-!
# Reports of Syntax Errors

A syntax error is reported in words. A token or an end that does not fit is
reported with the names of what would have fit. Which these are is known to a
parser generated from the grammar of the notation: they are what its table has
entries for in the state in which it stops. Neither that parser nor the wording
is fixed here. Both are parameters of every message, and what is asked of them
is that the table is made from items, that all entries are listed, and that a
report is worded in the usual way.

## Main definitions

* `Report`: What there is to say about a syntax error.
* `Generated`: A generated parser, and a wording of reports.
* `Enumerates`, `Listing`: A list of names in words.
* `Generated.Lawful`: What is asked of a generated parser and a wording.
-/

namespace EarleyForest

namespace Bnf

/-- What there is to say about a syntax error. Positions are bytes. -/
inductive Report where
  /-- No token begins here. -/
  | invalidToken (offset : Nat)
  /-- This token does not fit. -/
  | unrecognizedToken (text : String) (start stop : Nat) (expected : List String)
  /-- The text ends here. -/
  | unrecognizedEnd (offset : Nat) (expected : List String)
deriving DecidableEq

/-- A parser generated from the grammar of the notation, and a wording of
    reports. -/
structure Generated where
  table : Table Token.Kind Phrase
  /-- How a kind of token is named. -/
  name : Token.Kind → String
  /-- What is listed as expected behind tokens of these kinds, where a token of
      this kind has been found, or the end. -/
  expected : List Token.Kind → Option Token.Kind → List String
  wording : Report → String

/-- Some names, one after the other. -/
inductive Enumerates : List String → String → Prop where
  | one (name : String) : Enumerates [name] name
  | two (first last : String) : Enumerates [first, last] (first ++ " or " ++ last)
  | more (first : String) {next later : String} {names : List String} {text : String}
      (rest : Enumerates (next :: later :: names) text) :
      Enumerates (first :: next :: later :: names) (first ++ ", " ++ text)

/-- A list of what is expected, which is a line of its own if it is not
    empty. -/
inductive Listing : List String → String → Prop where
  | nothing : Listing [] ""
  | names {expected : List String} {text : String} (names : Enumerates expected text) :
      Listing expected ("\nExpected one of " ++ text)

/-- What is asked of a generated parser and a wording. -/
structure Generated.Lawful (gen : Generated) : Prop where
  table : gen.table.IsLr grammar
  /-- Kinds are told apart by their names. -/
  name_inj {kind kind' : Token.Kind} : gen.name kind = gen.name kind' → kind = kind'
  /-- Expected is every kind, by its name, that there is an entry for in the state
      in which the parser stops, and nothing else. -/
  mem_expected_iff {read : List Token.Kind} {found : Option Token.Kind} {state : gen.table.State}
    {below : List gen.table.State} {entry : String} :
    gen.table.Stops grammar read found (state :: below) →
      (entry ∈ gen.expected read found ↔
        ∃ kind, gen.table.acts state (some kind) = true ∧ gen.name kind = entry)
  invalidToken (offset : Nat) : gen.wording (.invalidToken offset) = s!"Invalid token at {offset}"
  unrecognizedToken (text : String) (start stop : Nat) (expected : List String) :
    ∃ line, Listing expected line ∧ gen.wording (.unrecognizedToken text start stop expected) =
      s!"Unrecognized token `{text}` found at {start}:{stop}" ++ line
  unrecognizedEnd (offset : Nat) (expected : List String) :
    ∃ line, Listing expected line ∧ gen.wording (.unrecognizedEnd offset expected) =
      s!"Unrecognized EOF found at {offset}" ++ line

end Bnf

end EarleyForest
