import EarleyForest.Bnf.Token
import EarleyForest.Grammar.Basic

/-!
# The Grammar of the Notation

The notation has a grammar of its own, over the kinds of tokens. A repetition
is a phrase that may be left out, and otherwise is written out from the left,
one more member at a time.

## Main definitions

* `Phrase`: What tokens make up.
* `grammar`: The grammar of the notation.
-/

namespace EarleyForest

namespace Bnf

/-- What tokens make up: a whole text and its parts. -/
inductive Phrase where
  | whole
  | rules
  | productions
  | production
  | alternatives
  | body
  | atoms
  | atom
  | name
  | quoted
deriving DecidableEq

/-- The grammar of the notation. The whole text is a phrase for itself, so that
    nothing leads back to it. -/
def grammar : Grammar Token.Kind Phrase where
  start := .whole
  rules := [
    -- 0: the rules are the whole text
    ⟨.whole, [.nonterminal .rules]⟩,
    -- 1, 2: a repetition of productions
    ⟨.rules, []⟩,
    ⟨.rules, [.nonterminal .productions]⟩,
    -- 3, 4
    ⟨.productions, [.nonterminal .production]⟩,
    ⟨.productions, [.nonterminal .productions, .nonterminal .production]⟩,
    -- 5
    ⟨.production, [.nonterminal .name, .terminal .defines, .nonterminal .alternatives,
      .terminal .semicolon]⟩,
    -- 6, 7
    ⟨.alternatives, [.nonterminal .body]⟩,
    ⟨.alternatives, [.nonterminal .alternatives, .terminal .bar, .nonterminal .body]⟩,
    -- 8, and 9, 10 for a repetition of atoms
    ⟨.body, [.terminal .epsilon]⟩,
    ⟨.body, []⟩,
    ⟨.body, [.nonterminal .atoms]⟩,
    -- 11, 12
    ⟨.atoms, [.nonterminal .atom]⟩,
    ⟨.atoms, [.nonterminal .atoms, .nonterminal .atom]⟩,
    -- 13, 14
    ⟨.atom, [.nonterminal .name]⟩,
    ⟨.atom, [.nonterminal .quoted]⟩,
    -- 15, 16
    ⟨.name, [.terminal .name]⟩,
    ⟨.quoted, [.terminal .quoted]⟩]

end Bnf

end EarleyForest
