import EarleyForest.Grammar.Basic

/-!
# Parsing by Table

A parser may be driven by a table. It keeps a stack of states, with the state
for all that has been read on top, and asks the table what to do when a
terminal or the end of the input comes next. A rule that ends here is reduced:
the states of its body are taken off, and the state below goes on with the
head of the rule. When there is nothing more to reduce, the parser goes on with
the terminal. If the table has no entry for it, the terminal cannot stand there.

A table is made from items with one terminal of lookahead. An item is a rule
with a dot in its body, together with a terminal that may come behind the whole
body, and a state has the items that may be under way in it. Rules for what
stands behind a dot are predicted in the same state, with what may come behind
them, and a symbol moves the dots before it on into the next state. States may
be merged if their items differ in the lookahead only. The lookahead is then
collected from all of them, so a state may have entries for terminals which
cannot come there.

## Main definitions

* `Table`: What a parser does in each state.
* `Table.Settles`: A stack becomes one on which there is nothing to reduce.
* `Table.Reads`: Terminals are read.
* `Table.Stops`: The stack of a parser when it has read some terminals.
* `Table.acts`: A state has an entry for what comes next.
* `Grammar.First`: What may come next, if certain symbols do.
* `Table.Has`: A state has an item.
* `Table.IsLr`: A table is made from items.
-/

namespace EarleyForest

variable {T N : Type}

/-- What a parser does in each of its states. -/
structure Table (T N : Type) where
  State : Type
  start : State
  /-- The state behind one more symbol. -/
  goto? : State → Symbol T N → Option State
  /-- The rule that ends here, if this terminal comes next, or the end. -/
  reduce? : State → Option T → Option Nat

namespace Table

/-- The stack when the symbols of a rule's body on top of it have been replaced
    by the head. -/
def replaced? (t : Table T N) (r : Rule T N) (stack : List t.State) : Option (List t.State) :=
  match stack.drop r.body.length with
  | [] => none
  | base :: below => (t.goto? base (.nonterminal r.head)).map (· :: base :: below)

/-- The stack after one reduction, if there is one to make. -/
def reduced? (t : Table T N) (g : Grammar T N) (ahead : Option T) (stack : List t.State) :
    Option (List t.State) :=
  match stack with
  | [] => none
  | state :: _ =>
    (t.reduce? state ahead).bind fun rule => g.rules[rule]?.bind fun r => t.replaced? r stack

/-- A stack becomes another by reductions, and there is nothing more to reduce
    before this terminal, or before the end. A table may be such that this is
    never so. -/
inductive Settles (t : Table T N) (g : Grammar T N) (ahead : Option T) :
    List t.State → List t.State → Prop where
  | done {stack : List t.State} (settled : t.reduced? g ahead stack = none) :
      Settles t g ahead stack stack
  | reduce {stack next last : List t.State} (reduced : t.reduced? g ahead stack = some next)
      (later : Settles t g ahead next last) : Settles t g ahead stack last

/-- A terminal is read: the stack settles, and has one state more behind the
    terminal. -/
inductive Shifts (t : Table T N) (g : Grammar T N) (terminal : T) :
    List t.State → List t.State → Prop where
  | shift {stack below : List t.State} {state next : t.State}
      (settles : t.Settles g (some terminal) stack (state :: below))
      (goto : t.goto? state (.terminal terminal) = some next) :
      Shifts t g terminal stack (next :: state :: below)

/-- Terminals are read, one after the other. -/
inductive Reads (t : Table T N) (g : Grammar T N) :
    List t.State → List T → List t.State → Prop where
  | nil (stack : List t.State) : Reads t g stack [] stack
  | cons {stack next last : List t.State} {terminal : T} {rest : List T}
      (shifts : t.Shifts g terminal stack next) (later : Reads t g next rest last) :
      Reads t g stack (terminal :: rest) last

/-- A parser has read some terminals and all has been reduced that is reduced
    before this terminal, or before the end. -/
def Stops (t : Table T N) (g : Grammar T N) (terminals : List T) (ahead : Option T)
    (stack : List t.State) : Prop :=
  ∃ before, t.Reads g [t.start] terminals before ∧ t.Settles g ahead before stack

/-- The table has an entry for a state and what comes next. -/
def acts (t : Table T N) (state : t.State) (ahead : Option T) : Bool :=
  (t.reduce? state ahead).isSome ||
    ahead.any fun terminal => (t.goto? state (.terminal terminal)).isSome

end Table

/-- What may come next, if these symbols are to come and behind them `ahead`. -/
inductive Grammar.First (g : Grammar T N) (ahead : Option T) :
    List (Symbol T N) → Option T → Prop where
  | nil : First g ahead [] ahead
  | terminal (t : T) (rest : List (Symbol T N)) : First g ahead (.terminal t :: rest) (some t)
  | nonterminal {r : Rule T N} {rest : List (Symbol T N)} {next : Option T} (rule : r ∈ g.rules)
      (body : First g ahead (r.body ++ rest) next) :
      First g ahead (.nonterminal r.head :: rest) next

namespace Table

/-- A rule with a dot in its body, and what may come behind the body. -/
structure Item (T : Type) where
  rule : Nat
  dot : Nat
  ahead : Option T
deriving DecidableEq

/-- The states have the items that the rules of the start symbol lead to. -/
inductive Has (t : Table T N) (g : Grammar T N) : t.State → Item T → Prop where
  | start {rule : Nat} {r : Rule T N} (here : g.rules[rule]? = some r) (head : r.head = g.start) :
      Has t g t.start ⟨rule, 0, none⟩
  | predict {state : t.State} {rule dot rule' : Nat} {r r' : Rule T N} {ahead next : Option T}
      (above : Has t g state ⟨rule, dot, ahead⟩) (here : g.rules[rule]? = some r)
      (symbol : r.body[dot]? = some (.nonterminal r'.head)) (rule : g.rules[rule']? = some r')
      (behind : g.First ahead (r.body.drop (dot + 1)) next) : Has t g state ⟨rule', 0, next⟩
  | advance {state state' : t.State} {rule dot : Nat} {ahead : Option T} {s : Symbol T N}
      (before : Has t g state ⟨rule, dot, ahead⟩) (symbol : g.symbolAt? rule dot = some s)
      (moved : t.goto? state s = some state') : Has t g state' ⟨rule, dot + 1, ahead⟩

/-- A table is made from items: it goes on over the symbols behind their dots,
    and reduces the rules that have ended, before what may come behind them. No
    state behind a symbol is the start, and states are merged only if they have
    the same rules with the same dots. -/
structure IsLr (t : Table T N) (g : Grammar T N) : Prop where
  goto_iff {state : t.State} {s : Symbol T N} : (t.goto? state s).isSome = true ↔
    ∃ item, t.Has g state item ∧ g.symbolAt? item.rule item.dot = some s
  reduce_iff {state : t.State} {ahead : Option T} {rule : Nat} :
    t.reduce? state ahead = some rule ↔
      ∃ r, g.rules[rule]? = some r ∧ t.Has g state ⟨rule, r.body.length, ahead⟩
  fresh {state : t.State} {s : Symbol T N} : t.goto? state s ≠ some t.start
  merged {state state' : t.State} {s : Symbol T N} {rule dot : Nat} {ahead : Option T} :
    t.goto? state s = some state' → t.Has g state' ⟨rule, dot + 1, ahead⟩ →
      g.symbolAt? rule dot = some s ∧ ∃ ahead', t.Has g state ⟨rule, dot, ahead'⟩

end Table

end EarleyForest
