import EarleyForest.Chart.Parse
import EarleyForest.Grammar.Spelling
import EarleyForest.Grammar.Validity

/-!
# Parsers

A parser is a grammar that has passed the check, together with the spelling
in which items and forests are shown.

## Main definitions

* `Parser`: A valid grammar and a spelling.
* `Parser.ofGrammar`: Checks a grammar.
* `Parser.parse`: Parses an input.
-/

namespace EarleyForest

variable {T N : Type}

/-- A valid grammar and the spelling in which items and forests are shown. -/
structure Parser (T N : Type) [DecidableEq N] where
  grammar : Grammar T N
  spelling : Spelling T N
  valid : grammar.validate = .ok ()

namespace Parser

/-- The parser for a grammar, or the grammar's first flaw. -/
def ofGrammar [DecidableEq N] (grammar : Grammar T N) (spelling : Spelling T N) :
    Except (Grammar.Flaw N) (Parser T N) :=
  match valid : grammar.validate with
  | .error flaw => .error flaw
  | .ok () => .ok ⟨grammar, spelling, valid⟩

/-- Parses an input. -/
def parse [DecidableEq T] [DecidableEq N] (p : Parser T N) (input : List T) : Parse T N :=
  p.grammar.parse input

end Parser

end EarleyForest
