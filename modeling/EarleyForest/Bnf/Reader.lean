import EarleyForest.Bnf.Merged
import EarleyForest.Grammar.Validity

/-!
# Reading Grammars

A grammar is written as a sequence of productions

    Sum ::= Sum '+' Sum | Digit ; Digit ::= '0' | '1' ;

where a production is a name, `::=`, one or more alternatives with `|` between
them, and `;`. An alternative is a sequence of names and quoted terminals that
may be empty, or a lone `ε`. Names are nonterminals. Each alternative makes
one rule, in the order of the text, and the head of the first production is
the start symbol.

The reader goes through the tokens from left to right and remembers only its
`Place` in the production at hand. The first token that cannot continue is the
one that an error reports. What could stand there instead is told by a parser
generated from the grammar of the notation.

## Main definitions

* `Place`: Where in a production the reader stands.
* `Place.after?`: The place behind one more token, and the rule it completes.
* `SyntaxError`: Why a text is no sequence of productions.
* `SyntaxError.message`: The wording of a syntax error.
* `readRules`: The rules that a text gives.
* `ReadError`: Why a text gives no valid grammar.
* `readGrammar`: The grammar that a text gives.
-/

namespace EarleyForest

namespace Bnf

/-- Where in a production the reader stands. -/
inductive Place where
  /-- Between two productions, or before the first. -/
  | outside
  /-- Behind the name that a production starts with. -/
  | named (head : List Char)
  /-- In an alternative of which some symbols have been read. -/
  | within (head : List Char) (symbols : List (Symbol String String))
  /-- Behind the `ε` that is an alternative of its own. -/
  | lone (head : List Char)
deriving DecidableEq

/-- A rule in which symbols and head are given by their spelling. -/
def ruleOf (head : List Char) (body : List (Symbol String String)) : Rule String String :=
  ⟨String.ofList head, body⟩

namespace Place

/-- The place behind one more token, and the rule that this token completes
    if it ends an alternative. A token that cannot stand there leads nowhere. -/
def after? : Place → Token → Option (Option (Rule String String) × Place)
  | outside, .name head => some (none, named head)
  | outside, _ => none
  | named head, .defines => some (none, within head [])
  | named _, _ => none
  | within head symbols, .name text =>
    some (none, within head (symbols ++ [.nonterminal (String.ofList text)]))
  | within head symbols, .quoted text =>
    some (none, within head (symbols ++ [.terminal (String.ofList text)]))
  | within head [], .epsilon => some (none, lone head)
  | within head symbols, .bar => some (some (ruleOf head symbols), within head [])
  | within head symbols, .semicolon => some (some (ruleOf head symbols), outside)
  | within _ _, _ => none
  | lone head, .bar => some (some (ruleOf head []), within head [])
  | lone head, .semicolon => some (some (ruleOf head []), outside)
  | lone _, _ => none

end Place

/-- Why a text is no sequence of productions. What has been read before is kept
    by its kinds. -/
inductive SyntaxError where
  /-- No token begins at this byte. -/
  | invalidToken (offset : Nat)
  /-- A token stands where it cannot continue the text before it. -/
  | unexpectedToken (read : List Token.Kind) (found : Lexeme)
  /-- The text ends, behind this byte, inside a production. -/
  | unexpectedEnd (read : List Token.Kind) (offset : Nat)
deriving DecidableEq

namespace SyntaxError

/-- The error, where one more token has been read before. -/
def behind (kind : Token.Kind) : SyntaxError → SyntaxError
  | invalidToken offset => invalidToken offset
  | unexpectedToken read found => unexpectedToken (kind :: read) found
  | unexpectedEnd read offset => unexpectedEnd (kind :: read) offset

/-- What there is to say about the error. -/
def report (gen : Generated) : SyntaxError → Report
  | invalidToken offset => .invalidToken offset
  | unexpectedToken read found =>
    .unrecognizedToken (String.ofList found.token.chars) found.start found.stop
      (gen.expected read (some found.kind))
  | unexpectedEnd read offset => .unrecognizedEnd offset (gen.expected read none)

/-- The wording of a syntax error. -/
def message (gen : Generated) (error : SyntaxError) : String := gen.wording (error.report gen)

end SyntaxError

/-- The rules that the rest of a text gives, read from a place behind byte
    `offset`. -/
def rulesFrom (place : Place) (offset : Nat) (invalid : Option Nat) :
    List Lexeme → Except SyntaxError (List (Rule String String))
  | [] =>
    match invalid, place with
    | some byte, _ => .error (.invalidToken byte)
    | none, .outside => .ok []
    | none, _ => .error (.unexpectedEnd [] offset)
  | found :: rest =>
    match place.after? found.token with
    | none => .error (.unexpectedToken [] found)
    | some (completed, next) =>
      match rulesFrom next found.stop invalid rest with
      | .error error => .error (error.behind found.kind)
      | .ok later => .ok (completed.toList ++ later)

/-- The rules that a text gives. -/
def readRules (text : List Char) : Except SyntaxError (List (Rule String String)) :=
  let read := scan text
  rulesFrom .outside 0 read.invalid read.lexemes

/-- Why a text gives no valid grammar. -/
inductive ReadError where
  | malformed (error : SyntaxError)
  | empty
  | flawed (flaw : Grammar.Flaw String)
deriving DecidableEq

/-- The wording of a refusal, given that of syntax errors and how nonterminals
    are written. -/
def ReadError.messageBy (gen : Generated) (quote : String → String) : ReadError → String
  | malformed error => "grammar syntax: " ++ error.message gen
  | empty => "grammar has no rules"
  | flawed flaw => flaw.message quote

/-- The wording of a refusal, with syntax errors as the merged table has
    them. -/
def ReadError.message (quote : String → String) (error : ReadError) : String :=
  error.messageBy .merged quote

/-- The grammar that a text gives. It is valid. -/
def readGrammar (text : String) : Except ReadError (Grammar String String) :=
  match readRules text.toList with
  | .error error => .error (.malformed error)
  | .ok [] => .error .empty
  | .ok (first :: rest) =>
    let g : Grammar String String := ⟨first.head, first :: rest⟩
    match g.validate with
    | .error flaw => .error (.flawed flaw)
    | .ok () => .ok g

end Bnf

end EarleyForest
