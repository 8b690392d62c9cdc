import EarleyForest.Grammar.Basic

/-!
# Spellings

Grammars are over any types of symbols, so every text in which symbols occur
takes a spelling of them.

## Main definitions

* `Spelling`: How terminals and nonterminals are written.
-/

namespace EarleyForest

/-- How terminals and nonterminals are written. -/
structure Spelling (T N : Type) where
  terminal : T → String
  nonterminal : N → String

end EarleyForest
