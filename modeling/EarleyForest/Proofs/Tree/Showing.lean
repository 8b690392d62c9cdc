import Mathlib.Data.List.Nodup
import EarleyForest.Tree.Derivation

/-!
# What Trees Show

Trees side by side show derivations of symbols side by side, so they can be
cut and joined where the symbols can. A tree tells by itself which symbol it
stands for and which span it covers; the trees of a derivation therefore tell
everything about its last step but which of several equal rules it used.

That is what the multiplicity of a tree is about. It counts, for each branch
of three children or more, the rules that the branch may stand for.

## Main definitions

* `Tree.symbol?`: The symbol that a tree stands for.
* `Tree.rule?`: The rule that a branch stands for.
* `Tree.multiplicity`: The ways to number the long rules of a tree.

## Theorems

* `showAll_append_iff`, `showAll_singleton_iff`, `showAll_concat_iff`: Cutting
  and joining.
* `exists_showAll`: A derivation is shown by trees.
* `ShowAll.symbols_eq`, `ShowAll.stop_eq`: What trees tell by themselves.
-/

namespace EarleyForest

namespace Tree

variable {T N Tok : Type} {g : Grammar T N} {input : List T} {tokens : List Tok}

/-- The symbol that a tree stands for. -/
def symbol? (input : List T) : Tree N Tok → Option (Symbol T N)
  | leaf _ span => input[span.start]?.map .terminal
  | covert label _ => some (.nonterminal label)
  | branch label _ _ => some (.nonterminal label)

/-- The rule that a branch stands for, as far as the branch tells. -/
def rule? (input : List T) : Tree N Tok → Option (Rule T N)
  | branch label _ children => some ⟨label, children.filterMap (symbol? input)⟩
  | _ => none

/-- Trees show by parts. -/
theorem showAll_append_iff {first second : List (Tree N Tok)} {symbols : List (Symbol T N)}
    {i j : Nat} : ShowAll g input tokens (first ++ second) symbols i j ↔
      ∃ before behind k, symbols = before ++ behind ∧
        ShowAll g input tokens first before i k ∧ ShowAll g input tokens second behind k j := by
  constructor
  · intro h
    -- Each tree of the first list takes its symbol with it.
    induction first generalizing symbols i with
    | nil => exact ⟨[], symbols, i, rfl, .nil i, h⟩
    | cons tree rest ih =>
        cases h with
        | cons hfirst hrest =>
            rcases ih hrest with ⟨before, behind, k, rfl, hbefore, hbehind⟩
            exact ⟨_ :: before, behind, k, rfl, .cons hfirst hbefore, hbehind⟩
  · rintro ⟨before, behind, k, rfl, hbefore, hbehind⟩
    induction first generalizing before i with
    | nil =>
        cases hbefore
        exact hbehind
    | cons tree rest ih =>
        cases hbefore with
        | cons hfirst hrest => exact .cons hfirst (ih _ hrest)

/-- One symbol is shown by one tree. -/
theorem showAll_singleton_iff {trees : List (Tree N Tok)} {s : Symbol T N} {i j : Nat} :
    ShowAll g input tokens trees [s] i j ↔
      ∃ tree, trees = [tree] ∧ tree.Shows g input tokens s i j := by
  constructor
  · intro h
    cases h with
    | cons hfirst hrest =>
        cases hrest
        exact ⟨_, rfl, hfirst⟩
  · rintro ⟨tree, rfl, h⟩
    exact .cons h (.nil j)

/-- The last of several symbols is shown by the last tree. -/
theorem showAll_concat_iff {trees : List (Tree N Tok)} {symbols : List (Symbol T N)}
    {s : Symbol T N} {i j : Nat} : ShowAll g input tokens trees (symbols ++ [s]) i j ↔
      ∃ before last k, trees = before ++ [last] ∧ ShowAll g input tokens before symbols i k ∧
        last.Shows g input tokens s k j := by
  constructor
  · intro h
    induction symbols generalizing trees i with
    | nil =>
        rcases showAll_singleton_iff.mp h with ⟨last, rfl, hlast⟩
        exact ⟨[], last, i, rfl, .nil i, hlast⟩
    | cons first rest ih =>
        cases h with
        | cons hfirst hrest =>
            rcases ih hrest with ⟨before, last, k, rfl, hbefore, hlast⟩
            exact ⟨_ :: before, last, k, rfl, .cons hfirst hbefore, hlast⟩
  · rintro ⟨before, last, k, rfl, hbefore, hlast⟩
    exact showAll_append_iff.mpr
      ⟨symbols, [s], k, rfl, hbefore, showAll_singleton_iff.mpr ⟨last, rfl, hlast⟩⟩

theorem ShowAll.length_eq {trees : List (Tree N Tok)} {symbols : List (Symbol T N)} {i j : Nat}
    (h : ShowAll g input tokens trees symbols i j) : trees.length = symbols.length := by
  induction trees generalizing symbols i with
  | nil =>
      cases h
      rfl
  | cons tree rest ih =>
      cases h with
      | cons _ hrest => rw [List.length_cons, List.length_cons, ih hrest]

theorem Shows.symbol?_eq {tree : Tree N Tok} {s : Symbol T N} {i j : Nat}
    (h : tree.Shows g input tokens s i j) : tree.symbol? input = some s := by
  cases h with
  | leaf here carried => simp only [symbol?, here, Option.map_some]
  | covert i rule => rfl
  | branch rule body parts => rfl

theorem Shows.span_eq {tree : Tree N Tok} {s : Symbol T N} {i j : Nat}
    (h : tree.Shows g input tokens s i j) : tree.span = ⟨i, j⟩ := by
  cases h <;> rfl

/-- Trees tell which symbols they stand for. -/
theorem ShowAll.filterMap_symbol? {trees : List (Tree N Tok)} {symbols : List (Symbol T N)}
    {i j : Nat} (h : ShowAll g input tokens trees symbols i j) :
    trees.filterMap (symbol? input) = symbols := by
  induction trees generalizing symbols i with
  | nil =>
      cases h
      rfl
  | cons tree rest ih =>
      cases h with
      | cons hfirst hrest => rw [List.filterMap_cons_some hfirst.symbol?_eq, ih hrest]

theorem ShowAll.symbols_eq {trees : List (Tree N Tok)} {symbols symbols' : List (Symbol T N)}
    {i j i' j' : Nat} (h : ShowAll g input tokens trees symbols i j)
    (h' : ShowAll g input tokens trees symbols' i' j') : symbols = symbols' :=
  h.filterMap_symbol?.symm.trans h'.filterMap_symbol?

/-- A branch over trees for the body of a rule stands for that rule. -/
theorem ShowAll.rule?_branch {children : List (Tree N Tok)} {body : List (Symbol T N)} {i j : Nat}
    (h : ShowAll g input tokens children body i j) (n : N) (span : Span) :
    (branch n span children).rule? input = some ⟨n, body⟩ := by
  rw [rule?, h.filterMap_symbol?]

/-- Trees tell where the last of them stops. -/
theorem ShowAll.stop_eq {trees : List (Tree N Tok)} {symbols symbols' : List (Symbol T N)}
    {i j j' : Nat} (h : ShowAll g input tokens trees symbols i j)
    (h' : ShowAll g input tokens trees symbols' i j') : j = j' := by
  induction trees generalizing symbols symbols' i with
  | nil =>
      cases h
      cases h'
      rfl
  | cons tree rest ih =>
      cases h with
      | cons hfirst hrest =>
          cases h' with
          | cons hfirst' hrest' =>
              -- The first tree carries its span, so the others start where it
              -- stops.
              have hspan := hfirst.span_eq.symm.trans hfirst'.span_eq
              rw [Span.mk.injEq] at hspan
              rw [← hspan.2] at hrest'
              exact ih hrest hrest'

/-- Each of the trees shows one of the symbols. -/
theorem ShowAll.shows_of_mem {trees : List (Tree N Tok)} {symbols : List (Symbol T N)} {i j : Nat}
    (h : ShowAll g input tokens trees symbols i j) {tree : Tree N Tok} (htree : tree ∈ trees) :
    ∃ s ∈ symbols, ∃ k l, tree.Shows g input tokens s k l := by
  induction trees generalizing symbols i with
  | nil => exact absurd htree List.not_mem_nil
  | cons first rest ih =>
      cases h with
      | cons hfirst hrest =>
          rcases List.mem_cons.mp htree with rfl | htree
          · exact ⟨_, List.mem_cons_self, _, _, hfirst⟩
          · rcases ih hrest htree with ⟨s, hs, hshows⟩
            exact ⟨s, List.mem_cons_of_mem _ hs, hshows⟩

mutual

/-- What a tree shows depends on which rules there are, but not on how often
    they stand in the grammar. -/
theorem Shows.of_rules {g' : Grammar T N} (hrules : ∀ r ∈ g.rules, r ∈ g'.rules)
    {tree : Tree N Tok} {s : Symbol T N} {i j : Nat} :
    tree.Shows g input tokens s i j → tree.Shows g' input tokens s i j
  | .leaf here carried => .leaf here carried
  | .covert i rule => .covert i (hrules _ rule)
  | .branch rule body parts => .branch (hrules _ rule) body (ShowAll.of_rules hrules parts)

theorem ShowAll.of_rules {g' : Grammar T N} (hrules : ∀ r ∈ g.rules, r ∈ g'.rules)
    {trees : List (Tree N Tok)} {symbols : List (Symbol T N)} {i j : Nat} :
    ShowAll g input tokens trees symbols i j → ShowAll g' input tokens trees symbols i j
  | .nil i => .nil i
  | .cons first behind => .cons (Shows.of_rules hrules first) (ShowAll.of_rules hrules behind)

end

/-- A derivation is shown by trees if there are tokens for its leaves. -/
theorem exists_showAll {symbols : List (Symbol T N)} {i j : Nat}
    (h : g.Derives input symbols i j) (htokens : input.length ≤ tokens.length) :
    ∃ trees : List (Tree N Tok), ShowAll g input tokens trees symbols i j := by
  -- By induction on the derivation: a rule becomes a branch, or a covert if its
  -- body is empty.
  induction h with
  | nil i => exact ⟨[], .nil i⟩
  | @terminal t rest i j here _ ih =>
      rcases ih with ⟨trees, hrest⟩
      have hlt := (List.getElem?_eq_some_iff.mp here).1
      have hcarried : tokens[i]? = some tokens[i] := List.getElem?_eq_getElem (by omega)
      exact ⟨_, .cons (.leaf here hcarried) hrest⟩
  | @nonterminal r n rest i k j rule head body _ ihBody ihRest =>
      rcases ihBody with ⟨children, hbody⟩
      rcases ihRest with ⟨trees, hrest⟩
      subst head
      by_cases hempty : r.body = []
      · rw [hempty] at body
        have hspan := Grammar.derives_nil_iff.mp body
        have hrule : Rule.epsilon r.head ∈ g.rules := by
          rw [Rule.epsilon, ← hempty]
          exact rule
        rw [← hspan] at hrest
        exact ⟨_, .cons (.covert i hrule) hrest⟩
      · exact ⟨_, .cons (.branch rule hempty hbody) hrest⟩

section

variable [DecidableEq T] [DecidableEq N]

mutual

/-- The number of ways to say of each branch with three children or more
    which rule of the grammar it stands for, if the same rule may stand in the
    grammar several times. -/
def multiplicity (g : Grammar T N) (input : List T) : Tree N Tok → Nat
  | leaf _ _ => 1
  | covert _ _ => 1
  | branch label _ children =>
    (if 3 ≤ children.length then g.rules.count ⟨label, children.filterMap (symbol? input)⟩
      else 1) * multiplicityAll g input children

/-- The product of the multiplicities of trees. -/
def multiplicityAll (g : Grammar T N) (input : List T) : List (Tree N Tok) → Nat
  | [] => 1
  | tree :: rest => tree.multiplicity g input * multiplicityAll g input rest

end

theorem multiplicityAll_append (first second : List (Tree N Tok)) :
    multiplicityAll g input (first ++ second) =
      multiplicityAll g input first * multiplicityAll g input second := by
  induction first with
  | nil => rw [List.nil_append, multiplicityAll, Nat.one_mul]
  | cons tree rest ih =>
      rw [List.cons_append, multiplicityAll, multiplicityAll, ih, Nat.mul_assoc]

theorem multiplicityAll_singleton (tree : Tree N Tok) :
    multiplicityAll g input [tree] = tree.multiplicity g input := by
  rw [multiplicityAll, multiplicityAll, Nat.mul_one]

/-- The multiplicity of a branch that stands for a rule. -/
theorem multiplicity_branch {children : List (Tree N Tok)} {body : List (Symbol T N)} {i j : Nat}
    (n : N) (span : Span) (h : ShowAll g input tokens children body i j) :
    (branch n span children).multiplicity g input =
      (if 3 ≤ body.length then g.rules.count ⟨n, body⟩ else 1) *
        multiplicityAll g input children := by
  rw [multiplicity, h.filterMap_symbol?, h.length_eq]

mutual

theorem Shows.multiplicity_pos {tree : Tree N Tok} {s : Symbol T N} {i j : Nat} :
    tree.Shows g input tokens s i j → 0 < tree.multiplicity g input
  | .leaf _ _ => Nat.one_pos
  | .covert _ _ => Nat.one_pos
  | .branch rule _ parts => by
      rw [multiplicity_branch _ _ parts]
      refine Nat.mul_pos ?_ parts.multiplicityAll_pos
      split
      · exact List.count_pos_iff.mpr rule
      · exact Nat.one_pos

theorem ShowAll.multiplicityAll_pos {trees : List (Tree N Tok)} {symbols : List (Symbol T N)}
    {i j : Nat} : ShowAll g input tokens trees symbols i j → 0 < multiplicityAll g input trees
  | .nil _ => Nat.one_pos
  | .cons first behind => Nat.mul_pos first.multiplicity_pos behind.multiplicityAll_pos

end

mutual

/-- The multiplicity of a tree depends on the long rules only. -/
theorem Shows.multiplicity_congr {g' : Grammar T N}
    (hlong : ∀ r : Rule T N, 3 ≤ r.body.length → g'.rules.count r = g.rules.count r)
    {tree : Tree N Tok} {s : Symbol T N} {i j : Nat} :
    tree.Shows g input tokens s i j → tree.multiplicity g' input = tree.multiplicity g input
  | .leaf _ _ => rfl
  | .covert _ _ => rfl
  | .branch (r := r) _ _ parts => by
      rw [multiplicity_branch _ _ parts, multiplicity, parts.filterMap_symbol?, parts.length_eq,
        ShowAll.multiplicityAll_congr hlong parts]
      split
      · rename_i hthree
        rw [hlong _ hthree]
      · rfl

theorem ShowAll.multiplicityAll_congr {g' : Grammar T N}
    (hlong : ∀ r : Rule T N, 3 ≤ r.body.length → g'.rules.count r = g.rules.count r)
    {trees : List (Tree N Tok)} {symbols : List (Symbol T N)} {i j : Nat} :
    ShowAll g input tokens trees symbols i j →
      multiplicityAll g' input trees = multiplicityAll g input trees
  | .nil _ => rfl
  | .cons first behind => by
      rw [multiplicityAll, multiplicityAll, Shows.multiplicity_congr hlong first,
        ShowAll.multiplicityAll_congr hlong behind]

end

mutual

/-- If no long rule stands in the grammar twice, there is one way only. -/
theorem Shows.multiplicity_eq_one
    (hrules : (g.rules.filter fun r => 3 ≤ r.body.length).Nodup) {tree : Tree N Tok}
    {s : Symbol T N} {i j : Nat} :
    tree.Shows g input tokens s i j → tree.multiplicity g input = 1
  | .leaf _ _ => rfl
  | .covert _ _ => rfl
  | .branch (r := r) rule _ parts => by
      rw [multiplicity_branch _ _ parts, ShowAll.multiplicityAll_eq_one hrules parts, Nat.mul_one]
      split
      · rename_i hlong
        -- Among the long rules this one counts once.
        have hmem : r ∈ g.rules.filter fun r => 3 ≤ r.body.length :=
          List.mem_filter.mpr ⟨rule, decide_eq_true hlong⟩
        have hsame : (g.rules.filter fun r => 3 ≤ r.body.length).count r = g.rules.count r :=
          List.count_filter (decide_eq_true hlong)
        exact hsame.symm.trans (List.count_eq_one_of_mem hrules hmem)
      · rfl

theorem ShowAll.multiplicityAll_eq_one
    (hrules : (g.rules.filter fun r => 3 ≤ r.body.length).Nodup) {trees : List (Tree N Tok)}
    {symbols : List (Symbol T N)} {i j : Nat} :
    ShowAll g input tokens trees symbols i j → multiplicityAll g input trees = 1
  | .nil _ => rfl
  | .cons first behind => by
      rw [multiplicityAll, Shows.multiplicity_eq_one hrules first,
        ShowAll.multiplicityAll_eq_one hrules behind]

end

end

end Tree

end EarleyForest
