import EarleyForest.Grammar.Spelling

/-!
# Writing Grammars

The text of a symbol, a rule and a grammar in the notation that the reader
takes. The head of the first production is the start symbol there, so the
first rule of the start symbol is written before all others; they keep their
order.

The text reads back as the same grammar up to that move when every
nonterminal is a name that heads a rule and no terminal holds an apostrophe.

## Main definitions

* `Symbol.text`, `Rule.text`, `Grammar.text`: The written forms.
-/

namespace EarleyForest

variable {T N : Type}

/-- A symbol in the notation for grammars: terminals stand in apostrophes. -/
def Symbol.text (spelling : Spelling T N) : Symbol T N → String
  | terminal t => "'" ++ spelling.terminal t ++ "'"
  | nonterminal n => spelling.nonterminal n

/-- A rule in the notation for grammars, without the mark that ends it. -/
def Rule.text (spelling : Spelling T N) (r : Rule T N) : String :=
  let body :=
    if r.body.isEmpty then " ε"
    else String.join (r.body.map fun s => " " ++ s.text spelling)
  spelling.nonterminal r.head ++ " ::=" ++ body

namespace Grammar

/-- The rules with the first one of the start symbol moved to the front. -/
def startFirst [DecidableEq N] (g : Grammar T N) : List (Rule T N) :=
  (g.rules.find? fun r => r.head = g.start).toList ++
    g.rules.eraseP fun r => r.head = g.start

/-- A grammar in the notation for grammars, one rule a line. -/
def text [DecidableEq N] (spelling : Spelling T N) (g : Grammar T N) : String :=
  String.join (g.startFirst.map fun r => r.text spelling ++ " ;\n")

end Grammar

end EarleyForest
