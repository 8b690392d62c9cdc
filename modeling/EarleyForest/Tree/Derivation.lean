import EarleyForest.Grammar.Derivation
import EarleyForest.Tree.Basic

/-!
# Trees as Derivations

When a tree shows how a grammar derives a stretch of the input. A leaf shows
a terminal, and carries the token in its place; an empty constituent shows a
rule with an empty body; a branch shows a rule whose symbols its children
derive, one after the other and without a gap.

## Main definitions

* `Tree.Shows`: A tree shows a derivation of a symbol.
* `Tree.ShowAll`: Trees show derivations of symbols side by side.

## Theorems

* `derives_of_showAll`: What trees show is derived.
-/

namespace EarleyForest

namespace Tree

variable {T N Tok : Type}

mutual

/-- A tree shows how a symbol derives the input from one position to
    another. -/
inductive Shows (g : Grammar T N) (input : List T) (tokens : List Tok) :
    Tree N Tok → Symbol T N → Nat → Nat → Prop where
  | leaf {t : T} {token : Tok} {i : Nat} (here : input[i]? = some t)
      (carried : tokens[i]? = some token) :
      Shows g input tokens (.leaf token ⟨i, i + 1⟩) (.terminal t) i (i + 1)
  | covert {n : N} (i : Nat) (rule : Rule.epsilon n ∈ g.rules) :
      Shows g input tokens (.covert n i) (.nonterminal n) i i
  | branch {r : Rule T N} {children : List (Tree N Tok)} {i j : Nat} (rule : r ∈ g.rules)
      (body : r.body ≠ []) (parts : ShowAll g input tokens children r.body i j) :
      Shows g input tokens (.branch r.head ⟨i, j⟩ children) (.nonterminal r.head) i j

/-- Trees side by side show how symbols derive the input from one position to
    another. -/
inductive ShowAll (g : Grammar T N) (input : List T) (tokens : List Tok) :
    List (Tree N Tok) → List (Symbol T N) → Nat → Nat → Prop where
  | nil (i : Nat) : ShowAll g input tokens [] [] i i
  | cons {tree : Tree N Tok} {rest : List (Tree N Tok)} {s : Symbol T N}
      {symbols : List (Symbol T N)} {i k j : Nat} (first : Shows g input tokens tree s i k)
      (behind : ShowAll g input tokens rest symbols k j) :
      ShowAll g input tokens (tree :: rest) (s :: symbols) i j

end

variable {g : Grammar T N} {input : List T} {tokens : List Tok}

mutual

/-- What a tree shows is derived. -/
theorem derives_of_shows {tree : Tree N Tok} {s : Symbol T N} {i j : Nat} :
    tree.Shows g input tokens s i j → g.Derives input [s] i j
  | .leaf here _ => .terminal here (.nil _)
  | .covert i rule => .nonterminal rule rfl (.nil i) (.nil i)
  | .branch rule _ parts => .nonterminal rule rfl (derives_of_showAll parts) (.nil _)

/-- What trees show side by side is derived. -/
theorem derives_of_showAll {trees : List (Tree N Tok)} {symbols : List (Symbol T N)}
    {i j : Nat} : ShowAll g input tokens trees symbols i j → g.Derives input symbols i j
  | .nil i => .nil i
  | .cons first behind =>
    Grammar.derives_append_iff.mpr
      ⟨_, derives_of_shows first, derives_of_showAll behind⟩

end

end Tree

end EarleyForest
