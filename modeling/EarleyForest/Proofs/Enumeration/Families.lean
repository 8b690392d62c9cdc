import Mathlib.Data.List.Count
import Mathlib.Tactic.Choose
import EarleyForest.Proofs.Enumeration.Assembly
import EarleyForest.Proofs.Forest.Exactness

/-!
# The Families That Trees Belong To

Trees that show what a node says are found below those of its families that
have the right children. They tell the symbols of the rule that was used and
where each of them stops, and a label over a span has one node. So there is
one such family for a part of a rule's body, which its node names, and one for
a nonterminal whose rule has at most two symbols, since equal rules share it.

A longer rule has a node of its own for the part of its body before the last
symbol. There the equal rules come apart: each of them has a family.

## Theorems

* `way_binary_of_shown`: What two children say if certain trees are below
  them.
* `families_of_intermediate`: The family of a part of a rule's body.
* `families_of_branch`: The families of a nonterminal.
-/

namespace EarleyForest

variable {T N Tok : Type} {g : Grammar T N} {input : List T} {tokens : List Tok} {f : Forest T N}

namespace Forest

/-- A family of two children below which some trees and one more tree are
    found: its rule has the symbols of these trees, and its children are the
    nodes for them. -/
theorem way_binary_of_shown {label : Label T N} {i k j : Nat} {family : Family}
    (hway : f.Way g label ⟨i, j⟩ family) {before : List (Tree N Tok)} {last : Tree N Tok}
    {symbols : List (Symbol T N)} {s : Symbol T N} (hsymbols : symbols ≠ [])
    (hbefore : Tree.ShowAll g input tokens before symbols i k)
    (hlast : last.Shows g input tokens s k j)
    (hshown : f.ShownBelow g input tokens family (before ++ [last])) :
    ∃ rule r first left right, g.rules[rule]? = some r ∧ r.body.take symbols.length = symbols ∧
      r.body[symbols.length]? = some s ∧ g.labelAt? rule symbols.length = some first ∧
      g.labelAt? rule (symbols.length + 1) = some label ∧ f.Has left first ⟨i, k⟩ ∧
      f.Has right s.label ⟨k, j⟩ ∧ family = .binary left right := by
  have hlength := hbefore.length_eq
  have hpos : 0 < symbols.length := List.length_pos_of_ne_nil hsymbols
  cases hway with
  | epsilon hrule =>
      have hnil : before ++ [last] = [] := hshown
      exact absurd hnil (List.append_ne_nil_of_right_ne_nil _ (List.cons_ne_nil _ _))
  | unary hrule hchild =>
      -- One symbol is shown by one tree only.
      rcases (shown_symbol_iff hchild).mp hshown with ⟨tree, htree, _⟩
      have hone := congrArg List.length htree
      rw [List.length_append, List.length_singleton, List.length_singleton] at hone
      omega
  | @binary rule dot i k' j first label s' left right hfirst hs hlabel hleft hright =>
      rcases Grammar.symbolAt?_eq_some_iff.mp hs with ⟨r, hr, hs'⟩
      have hlt := (List.getElem?_eq_some_iff.mp hs').1
      rcases hshown with ⟨before', behind, heq, hbefore', hbehind⟩
      rcases (shown_symbol_iff hright).mp hbehind with ⟨last', rfl, hlast'⟩
      rcases List.append_inj' heq rfl with ⟨rfl, hlasts⟩
      rw [List.singleton_inj] at hlasts
      subst hlasts
      rw [shown_prefix_iff hfirst hr hlt hleft] at hbefore'
      -- The trees tell the symbols, and these the dot.
      have htake := hbefore.symbols_eq hbefore'
      have hk := hbefore.stop_eq hbefore'
      have hsame : s = s' := Option.some.inj (hlast.symbol?_eq.symm.trans hlast'.symbol?_eq)
      have hdot : dot = symbols.length := by
        rw [htake, List.length_take_of_le (Nat.le_of_lt hlt)]
      subst hk
      subst hsame
      subst hdot
      exact ⟨rule, r, first, left, right, hr, htake.symm, hs', hfirst, hlabel, hleft, hright, rfl⟩

/-- The family that a rule of two symbols or more leads to. -/
theorem Exact.lists_of_rule (hexact : f.Exact g input) {n : N} {symbols : List (Symbol T N)}
    {s : Symbol T N} {i k j rule : Nat} {id : NodeId} (hhas : f.Has id (.nonterminal n) ⟨i, j⟩)
    (hsymbols : symbols ≠ []) (hr : g.rules[rule]? = some ⟨n, symbols ++ [s]⟩)
    (hbefore : g.Derives input symbols i k) (hlast : g.Derives input [s] k j) :
    ∃ first left right, g.labelAt? rule symbols.length = some first ∧ f.Has left first ⟨i, k⟩ ∧
      f.Has right s.label ⟨k, j⟩ ∧ f.Lists id (.nonterminal n) ⟨i, j⟩ (.binary left right) := by
  have hpos : 0 < symbols.length := List.length_pos_of_ne_nil hsymbols
  have hs : (symbols ++ [s])[symbols.length]? = some s := List.getElem?_concat_length
  have hlength : symbols.length + 1 = (symbols ++ [s]).length := by
    rw [List.length_append, List.length_singleton]
  have hmatched : g.Matched input rule symbols.length i k := by
    refine (Grammar.matched_iff hr).mpr ⟨Nat.le_of_lt (Nat.lt_of_succ_le (Nat.le_of_eq hlength)),
      (hexact.sound.holds hhas).1, ?_⟩
    rwa [List.take_left' rfl]
  have hnext : g.symbolAt? rule symbols.length = some s :=
    (Grammar.symbolAt?_of_rule hr _).trans hs
  rcases hexact.binary hmatched hpos hnext hlast with
    ⟨first, after, id', left, right, hfirst, hafter, hleft, hright, hlists⟩
  rw [Grammar.labelAt?_succ hr hs, if_neg fun h => absurd h.1 (Nat.ne_of_gt hpos),
    if_pos hlength, Option.some.injEq] at hafter
  rw [← hafter] at hlists
  rw [hexact.sound.unique hlists.has hhas] at hlists
  exact ⟨first, left, right, hfirst, hleft, hright, hlists⟩

/-- The one family of a nonterminal below which a tree for the only symbol of
    a rule is found. -/
theorem families_of_single (hexact : f.Exact g input) {n : N} {s : Symbol T N} {i j : Nat}
    {id : NodeId} {tree : Tree N Tok} (hhas : f.Has id (.nonterminal n) ⟨i, j⟩)
    (hrule : ⟨n, [s]⟩ ∈ g.rules) (hshows : tree.Shows g input tokens s i j) :
    ∃ child, ∀ family, family = .unary child ↔
      f.Lists id (.nonterminal n) ⟨i, j⟩ family ∧ f.ShownBelow g input tokens family [tree] := by
  rcases hexact.complete.unary hrule (hexact.sound.holds hhas).1 (Tree.derives_of_shows hshows) with
    ⟨id', child, hchild, hlists⟩
  rw [hexact.sound.unique hlists.has hhas] at hlists
  refine ⟨child, fun family => ⟨?_, ?_⟩⟩
  · rintro rfl
    exact ⟨hlists, (shown_symbol_iff hchild).mpr ⟨tree, rfl, hshows⟩⟩
  · rintro ⟨hlists', hshown⟩
    -- Conversely the trees below a family tell how it was made.
    have hway := hexact.sound.way hlists'
    generalize hlabel : (.nonterminal n : Label T N) = label at hway
    generalize hspan : (⟨i, j⟩ : Span) = span at hway
    cases hway with
    | epsilon => exact absurd hshown (List.cons_ne_nil _ _)
    | @unary n' s' span child' hrule' hchild' =>
        subst hspan
        rcases (shown_symbol_iff hchild').mp hshown with ⟨tree', heq, hshows'⟩
        rw [List.singleton_inj] at heq
        rw [← heq] at hshows'
        -- The tree tells the symbol, and the symbol over the span has one node.
        have hsame : s = s' := Option.some.inj (hshows.symbol?_eq.symm.trans hshows'.symbol?_eq)
        rw [← hsame] at hchild'
        rw [hexact.sound.unique hchild hchild']
    | @binary rule dot _ k _ first label' s' left right hfirst hs hlabel' hleft hright =>
        -- Two children have two trees at least.
        rcases hshown with ⟨before, behind, heq, hbefore, hbehind⟩
        rcases Grammar.symbolAt?_eq_some_iff.mp hs with ⟨r, hr, hs'⟩
        have hlt := (List.getElem?_eq_some_iff.mp hs').1
        rw [shown_prefix_iff hfirst hr hlt hleft] at hbefore
        rcases (shown_symbol_iff hright).mp hbehind with ⟨last, rfl, _⟩
        have hlength := hbefore.length_eq
        rw [List.length_take_of_le (Nat.le_of_lt hlt)] at hlength
        have htwo := congrArg List.length heq
        rw [List.length_append, List.length_singleton, List.length_singleton] at htwo
        have hzero : dot = 0 := by omega
        rw [hzero, Grammar.labelAt?_zero] at hfirst
        cases hfirst

/-- If a match of two symbols or more has the label of a nonterminal, these are
    all symbols of a rule of that nonterminal. -/
theorem rule_eq_of_label {rule : Nat} {r : Rule T N} {n : N} {symbols : List (Symbol T N)}
    {s : Symbol T N} (hr : g.rules[rule]? = some r) (hsymbols : symbols ≠ [])
    (htake : r.body.take symbols.length = symbols) (hs : r.body[symbols.length]? = some s)
    (hlabel : g.labelAt? rule (symbols.length + 1) = some (.nonterminal n)) :
    r = ⟨n, symbols ++ [s]⟩ := by
  have hpos : 0 < symbols.length := List.length_pos_of_ne_nil hsymbols
  rw [Grammar.labelAt?_succ hr hs, if_neg fun h => absurd h.1 (Nat.ne_of_gt hpos),
    Option.some.injEq] at hlabel
  split at hlabel
  · rename_i hwhole
    rw [Label.nonterminal.injEq] at hlabel
    have hbody : r.body = symbols ++ [s] := by
      rw [← List.take_length (l := r.body), ← hwhole, List.take_add_one, htake, hs]
      rfl
    rw [← hlabel, ← hbody]
  · cases hlabel

/-- The families of a nonterminal below which trees for the symbols of a rule
    of two or more are found: one for each of the equal rules, and what tells
    them apart is the node for all symbols but the last. -/
theorem families_of_several (hexact : f.Exact g input) {n : N} {symbols : List (Symbol T N)}
    {s : Symbol T N} {i k j : Nat} {id : NodeId} {before : List (Tree N Tok)} {last : Tree N Tok}
    (hhas : f.Has id (.nonterminal n) ⟨i, j⟩) (hsymbols : symbols ≠ [])
    (hrule : ⟨n, symbols ++ [s]⟩ ∈ g.rules)
    (hbefore : Tree.ShowAll g input tokens before symbols i k)
    (hlast : last.Shows g input tokens s k j) :
    ∃ (left : Nat → NodeId) (right : NodeId),
      (∀ rule, g.rules[rule]? = some ⟨n, symbols ++ [s]⟩ →
        ∃ first, g.labelAt? rule symbols.length = some first ∧ f.Has (left rule) first ⟨i, k⟩) ∧
      ∀ family, (f.Lists id (.nonterminal n) ⟨i, j⟩ family ∧
          f.ShownBelow g input tokens family (before ++ [last])) ↔
        ∃ rule, g.rules[rule]? = some ⟨n, symbols ++ [s]⟩ ∧ family = .binary (left rule) right := by
  have htake : (symbols ++ [s]).take symbols.length = symbols := List.take_left' rfl
  have hlength : symbols.length + 1 = (symbols ++ [s]).length := by
    rw [List.length_append, List.length_singleton]
  -- The right child is the same for all of them.
  rcases List.getElem?_of_mem hrule with ⟨rule₀, hr₀⟩
  have hbefore' := Tree.derives_of_showAll hbefore
  have hlast' := Tree.derives_of_shows hlast
  rcases hexact.lists_of_rule hhas hsymbols hr₀ hbefore' hlast' with ⟨_, _, right, _, _, hright, _⟩
  have hleft : ∀ rule, g.rules[rule]? = some ⟨n, symbols ++ [s]⟩ → ∃ left,
      (∃ first, g.labelAt? rule symbols.length = some first ∧ f.Has left first ⟨i, k⟩) ∧
      f.Lists id (.nonterminal n) ⟨i, j⟩ (.binary left right) := by
    intro rule hr
    rcases hexact.lists_of_rule hhas hsymbols hr hbefore' hlast' with
      ⟨first, left, right', hfirst, hleft, hright', hlists⟩
    rw [hexact.sound.unique hright' hright] at hlists
    exact ⟨left, ⟨first, hfirst, hleft⟩, hlists⟩
  -- The left child depends on the rule that is used.
  choose! left hleft using hleft
  refine ⟨left, right, fun rule hr => (hleft rule hr).1, fun family => ⟨?_, ?_⟩⟩
  · rintro ⟨hlists, hshown⟩
    rcases way_binary_of_shown (hexact.sound.way hlists) hsymbols hbefore hlast hshown with
      ⟨rule, r, first, left', right', hr, hsame, hs', hfirst, hafter, hleft', hright', rfl⟩
    rw [rule_eq_of_label hr hsymbols hsame hs' hafter] at hr
    rcases hleft rule hr with ⟨⟨first', hfirst', hhas'⟩, _⟩
    rw [hfirst, Option.some.injEq] at hfirst'
    rw [← hfirst'] at hhas'
    exact ⟨rule, hr, by
      rw [hexact.sound.unique hleft' hhas', hexact.sound.unique hright' hright]⟩
  · rintro ⟨rule, hr, rfl⟩
    rcases hleft rule hr with ⟨⟨first, hfirst, hhas'⟩, hlists⟩
    refine ⟨hlists, before, [last], rfl, ?_,
      (shown_symbol_iff hright).mpr ⟨last, rfl, hlast⟩⟩
    rw [shown_prefix_iff hfirst hr (Nat.lt_of_succ_le (Nat.le_of_eq hlength)) hhas', htake]
    exact hbefore

/-- For a rule of two symbols the node for the first of them is the symbol's
    own, so equal rules share their family. -/
theorem left_eq_of_pair (hsound : f.Sound g input) {n : N} {s₁ s₂ : Symbol T N}
    {i k rule rule' : Nat} {left left' : NodeId} {first first' : Label T N}
    (hr : g.rules[rule]? = some ⟨n, [s₁, s₂]⟩)
    (hr' : g.rules[rule']? = some ⟨n, [s₁, s₂]⟩) (hfirst : g.labelAt? rule 1 = some first)
    (hfirst' : g.labelAt? rule' 1 = some first') (hhas : f.Has left first ⟨i, k⟩)
    (hhas' : f.Has left' first' ⟨i, k⟩) : left = left' := by
  rw [Grammar.labelAt?_one hr rfl Nat.one_lt_two, Option.some.injEq] at hfirst
  rw [Grammar.labelAt?_one hr' rfl Nat.one_lt_two, hfirst, Option.some.injEq] at hfirst'
  rw [← hfirst'] at hhas'
  exact hsound.unique hhas hhas'

/-- For a longer rule the part of its body has a node of its own for each rule,
    so equal rules come apart. -/
theorem rule_eq_of_long {n : N} {symbols : List (Symbol T N)} {s : Symbol T N}
    {i k rule rule' : Nat} {left : NodeId} {first first' : Label T N} (hlong : 2 ≤ symbols.length)
    (hr : g.rules[rule]? = some ⟨n, symbols ++ [s]⟩)
    (hr' : g.rules[rule']? = some ⟨n, symbols ++ [s]⟩)
    (hfirst : g.labelAt? rule symbols.length = some first)
    (hfirst' : g.labelAt? rule' symbols.length = some first') (hhas : f.Has left first ⟨i, k⟩)
    (hhas' : f.Has left first' ⟨i, k⟩) : rule = rule' := by
  have hlt : symbols.length < (symbols ++ [s]).length := by
    rw [List.length_append, List.length_singleton]
    exact Nat.lt_succ_self _
  rw [Grammar.labelAt?_intermediate hr hlong hlt, Option.some.injEq] at hfirst
  rw [Grammar.labelAt?_intermediate hr' hlong hlt, Option.some.injEq] at hfirst'
  have hlabels := hfirst.trans ((hhas.eq hhas').1.trans hfirst'.symm)
  rw [Label.intermediate.injEq] at hlabels
  exact hlabels.1

/-- The one family of a part of a rule's body below which trees for its
    symbols are found. -/
theorem families_of_intermediate (hexact : f.Exact g input) {rule dot : Nat} {span : Span}
    {id : NodeId} {trees : List (Tree N Tok)} (hhas : f.Has id (.intermediate rule dot) span)
    (hshown : f.Shown g input tokens id trees) :
    ∃ only, ∀ family, family = only ↔ f.Lists id (.intermediate rule dot) span family ∧
      f.ShownBelow g input tokens family trees := by
  rcases span with ⟨i, j⟩
  rcases hexact.sound.holds hhas with ⟨hdot, ⟨r, hr, hlt⟩, hmatched⟩
  rcases (Grammar.matched_iff hr).mp hmatched with ⟨_, hasked, _⟩
  rcases Nat.exists_eq_add_of_le' hdot with ⟨d, rfl⟩
  have hs : r.body[d + 1]? = some r.body[d + 1] := List.getElem?_eq_getElem (by omega)
  have hlabel := Grammar.labelAt?_intermediate hr hdot hlt
  have hparts := (shown_prefix_iff hlabel hr hlt hhas).mp hshown
  rw [List.take_add_one, hs, Option.toList_some] at hparts
  rcases Tree.showAll_concat_iff.mp hparts with ⟨before, last, k, rfl, hbefore, hlast⟩
  have hlength : (r.body.take (d + 1)).length = d + 1 := List.length_take_of_le (by omega)
  have hsymbols : r.body.take (d + 1) ≠ [] := List.ne_nil_of_length_eq_add_one hlength
  have hfirst : g.Matched input rule (d + 1) i k :=
    (Grammar.matched_iff hr).mpr ⟨by omega, hasked, Tree.derives_of_showAll hbefore⟩
  rcases hexact.binary hfirst (Nat.le_add_left 1 d) ((Grammar.symbolAt?_of_rule hr _).trans hs)
    (Tree.derives_of_shows hlast) with
    ⟨label, after, id', left, right, hlabel', hafter, hleft, hright, hlists⟩
  rw [hlabel, Option.some.injEq] at hafter
  rw [← hafter] at hlists
  rw [hexact.sound.unique hlists.has hhas] at hlists
  refine ⟨.binary left right, fun family => ⟨?_, ?_⟩⟩
  · rintro rfl
    refine ⟨hlists, before, [last], rfl, ?_,
      (shown_symbol_iff hright).mpr ⟨last, rfl, hlast⟩⟩
    exact (shown_prefix_iff hlabel' hr (by omega) hleft).mpr hbefore
  · rintro ⟨hlists', hshown'⟩
    rcases way_binary_of_shown (hexact.sound.way hlists') hsymbols hbefore hlast hshown' with
      ⟨rule', r', label'', left', right', hr', _, hs', hlabel'', hafter', hleft', hright', rfl⟩
    rw [hlength] at hs' hlabel'' hafter'
    -- The label names the rule.
    have hrule : rule' = rule := by
      rw [Grammar.labelAt?_succ hr' hs', if_neg (by omega), Option.some.injEq] at hafter'
      split at hafter'
      · cases hafter'
      · rw [Label.intermediate.injEq] at hafter'
        exact hafter'.1
    rw [hrule, hlabel', Option.some.injEq] at hlabel''
    rw [← hlabel''] at hleft'
    rw [hexact.sound.unique hleft' hleft, hexact.sound.unique hright' hright]

section

variable [DecidableEq T] [DecidableEq N]

theorem mem_idxsOf_iff {r : Rule T N} {rules : List (Rule T N)} {rule : Nat} :
    rule ∈ rules.idxsOf r ↔ rules[rule]? = some r := by
  rw [List.mem_idxsOf_iff_exists_getElem_pos, List.getElem?_eq_some_iff]
  simp only [beq_iff_eq]

/-- The families of a nonterminal below which the children of a branch are
    found. There is one for each rule that the branch may stand for if the rule
    has three symbols or more, and one in all if it has fewer. -/
theorem families_of_branch (hexact : f.Exact g input) {n : N} {body : List (Symbol T N)}
    {i j : Nat} {id : NodeId} {children : List (Tree N Tok)}
    (hhas : f.Has id (.nonterminal n) ⟨i, j⟩) (hrule : ⟨n, body⟩ ∈ g.rules) (hbody : body ≠ [])
    (hparts : Tree.ShowAll g input tokens children body i j) :
    ∃ families : List Family, families.Nodup ∧
      (∀ family, family ∈ families ↔ f.Lists id (.nonterminal n) ⟨i, j⟩ family ∧
        f.ShownBelow g input tokens family children) ∧
      families.length = if 3 ≤ body.length then g.rules.count ⟨n, body⟩ else 1 := by
  -- The last symbol of the body is the right child's, and the others are the
  -- left child's.
  have hconcat := List.dropLast_concat_getLast hbody
  generalize body.dropLast = symbols at hconcat
  generalize body.getLast hbody = s at hconcat
  subst hconcat
  rcases Tree.showAll_concat_iff.mp hparts with ⟨before, last, k, rfl, hbefore, hlast⟩
  rw [List.length_append, List.length_singleton]
  by_cases hsymbols : symbols = []
  · subst hsymbols
    cases hbefore
    rcases families_of_single hexact hhas hrule hlast with ⟨child, hchild⟩
    refine ⟨[.unary child], List.nodup_singleton _, fun family => ?_, rfl⟩
    rw [List.mem_singleton]
    exact hchild family
  · rcases families_of_several hexact hhas hsymbols hrule hbefore hlast with
      ⟨left, right, hleft, hfamilies⟩
    have hpos : 0 < symbols.length := List.length_pos_of_ne_nil hsymbols
    by_cases hone : symbols.length = 1
    · rcases List.length_eq_one_iff.mp hone with ⟨s₁, rfl⟩
      rcases List.getElem?_of_mem hrule with ⟨rule₀, hr₀⟩
      rcases hleft rule₀ hr₀ with ⟨first₀, hfirst₀, hhas₀⟩
      refine ⟨[.binary (left rule₀) right], List.nodup_singleton _, fun family => ?_, ?_⟩
      · rw [List.mem_singleton, hfamilies]
        constructor
        · rintro rfl
          exact ⟨rule₀, hr₀, rfl⟩
        · rintro ⟨rule, hr, rfl⟩
          rcases hleft rule hr with ⟨first, hfirst, hhas'⟩
          rw [left_eq_of_pair hexact.sound hr hr₀ hfirst hfirst₀ hhas' hhas₀]
      · rw [if_neg (by omega), List.length_singleton]
    · refine ⟨(g.rules.idxsOf ⟨n, symbols ++ [s]⟩).map fun rule => .binary (left rule) right, ?_,
        fun family => ?_, ?_⟩
      · refine List.Nodup.map_on (fun rule hr rule' hr' heq => ?_) List.nodup_idxsOf
        rw [mem_idxsOf_iff] at hr hr'
        rw [Family.binary.injEq] at heq
        rcases hleft rule hr with ⟨first, hfirst, hhas'⟩
        rcases hleft rule' hr' with ⟨first', hfirst', hhas''⟩
        rw [heq.1] at hhas'
        exact rule_eq_of_long (by omega) hr hr' hfirst hfirst' hhas' hhas''
      · rw [List.mem_map, hfamilies]
        simp only [mem_idxsOf_iff, eq_comm]
      · rw [List.length_map, List.length_idxsOf, if_pos (by omega)]

end

end Forest

end EarleyForest
