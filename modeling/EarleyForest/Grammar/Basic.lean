/-!
# Grammars

Context-free grammars over any type of terminals and any type of
nonterminals.

The rules form a list, and their order carries meaning: a rule is referred to
by its index, items and forest nodes mention that index, and derivations are
listed in the order in which the rules produced them. The same rule may stand
in the list twice.

## Main definitions

* `Symbol`: A terminal or a nonterminal.
* `Rule`: A head and a body, which may be empty.
* `Grammar`: A start symbol and a list of rules.
* `Grammar.heads`: The nonterminals that head a rule.
* `Grammar.terminals`: The terminals that occur in a body.
* `Grammar.rulesFor`: The indices of the rules of one nonterminal.
* `Grammar.symbolAt?`: The symbol behind a dot in a rule's body.

## Theorems

* `mem_rulesFor_iff`: A nonterminal's rules are those that it heads.
* `mem_heads_iff`: A nonterminal is a head if it heads a rule.
-/

namespace EarleyForest

variable {T N : Type}

/-- A symbol of a rule's body. -/
inductive Symbol (T N : Type) where
  | terminal (t : T)
  | nonterminal (n : N)
deriving DecidableEq

namespace Symbol

/-- The terminal that a symbol is, if it is one. -/
def terminal? : Symbol T N → Option T
  | terminal t => some t
  | nonterminal _ => none

/-- The nonterminal that a symbol is, if it is one. -/
def nonterminal? : Symbol T N → Option N
  | terminal _ => none
  | nonterminal n => some n

end Symbol

/-- A rule: its head derives whatever the symbols of its body derive one
    after the other. -/
structure Rule (T N : Type) where
  head : N
  body : List (Symbol T N)
deriving DecidableEq

namespace Rule

/-- The rule by which a nonterminal derives the empty input. -/
def epsilon (head : N) : Rule T N := ⟨head, []⟩

/-- A rule with an empty body. -/
def isEpsilon (r : Rule T N) : Bool := r.body.isEmpty

end Rule

/-- A start symbol and an ordered list of rules. -/
structure Grammar (T N : Type) where
  start : N
  rules : List (Rule T N)
deriving DecidableEq

namespace Grammar

/-- The nonterminals that head a rule, each once. -/
def heads [DecidableEq N] (g : Grammar T N) : List N :=
  (g.rules.map Rule.head).eraseDups

/-- The terminals that occur in a body, each once. -/
def terminals [DecidableEq T] (g : Grammar T N) : List T :=
  (g.rules.flatMap fun r => r.body.filterMap Symbol.terminal?).eraseDups

/-- The indices of the rules headed by a nonterminal, in ascending order. -/
def rulesFor [DecidableEq N] (g : Grammar T N) (n : N) : List Nat :=
  g.rules.zipIdx.filterMap fun (r, index) => if r.head = n then some index else none

/-- The symbol of rule `rule` that `dot` symbols precede, if there is one. -/
def symbolAt? (g : Grammar T N) (rule dot : Nat) : Option (Symbol T N) :=
  g.rules[rule]?.bind fun r => r.body[dot]?

theorem mem_rulesFor_iff [DecidableEq N] {g : Grammar T N} {n : N} {index : Nat} :
    index ∈ g.rulesFor n ↔ ∃ r, g.rules[index]? = some r ∧ r.head = n := by
  simp only [rulesFor, List.mem_filterMap, Prod.exists, List.mem_zipIdx_iff_getElem?,
    Option.ite_none_right_eq_some, Option.some.injEq]
  constructor
  · rintro ⟨r, i, hr, hhead, rfl⟩
    exact ⟨r, hr, hhead⟩
  · rintro ⟨r, hr, hhead⟩
    exact ⟨r, index, hr, hhead, rfl⟩

theorem mem_heads_iff [DecidableEq N] {g : Grammar T N} {n : N} :
    n ∈ g.heads ↔ ∃ r ∈ g.rules, r.head = n := by
  simp only [heads, List.mem_eraseDups, List.mem_map]

end Grammar

end EarleyForest
