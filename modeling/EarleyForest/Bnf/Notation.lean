import EarleyForest.Bnf.Token
import EarleyForest.Grammar.Basic

/-!
# The Notation as a Language

Which sequences of tokens write which rules, as a definition of the notation
rather than a way to read it.

## Main definitions

* `Writes`: Tokens write the body of one alternative.
* `WriteAlternatives`: Tokens write the alternatives of one head.
* `WriteProductions`: Tokens write a sequence of productions.
-/

namespace EarleyForest

namespace Bnf

/-- The symbol that a token stands for in a body, if it stands for one. -/
def Token.symbol? : Token → Option (Symbol String String)
  | name text => some (.nonterminal (String.ofList text))
  | quoted text => some (.terminal (String.ofList text))
  | _ => none

/-- Tokens write the body of one alternative: symbol by symbol, or as a lone
    `ε` if it is empty. -/
inductive Writes : List Token → List (Symbol String String) → Prop where
  | epsilon : Writes [.epsilon] []
  | symbols {tokens : List Token} {body : List (Symbol String String)}
      (each : tokens.map Token.symbol? = body.map some) : Writes tokens body

/-- Tokens write the alternatives of one head, a bar between two of them and
    a semicolon behind the last. -/
inductive WriteAlternatives (head : String) :
    List Token → List (Rule String String) → Prop where
  | last {tokens : List Token} {body : List (Symbol String String)}
      (alternative : Writes tokens body) :
      WriteAlternatives head (tokens ++ [.semicolon]) [⟨head, body⟩]
  | more {tokens rest : List Token} {body : List (Symbol String String)}
      {rules : List (Rule String String)} (alternative : Writes tokens body)
      (others : WriteAlternatives head rest rules) :
      WriteAlternatives head (tokens ++ .bar :: rest) (⟨head, body⟩ :: rules)

/-- Tokens write a sequence of productions, one rule for each alternative. -/
inductive WriteProductions : List Token → List (Rule String String) → Prop where
  | nil : WriteProductions [] []
  | cons {head : List Char} {tokens rest : List Token} {rules others : List (Rule String String)}
      (alternatives : WriteAlternatives (String.ofList head) tokens rules)
      (productions : WriteProductions rest others) :
      WriteProductions (.name head :: .defines :: tokens ++ rest) (rules ++ others)

end Bnf

end EarleyForest
