import EarleyForest.Proofs.Forest.Soundness

/-!
# Exact Forests

A forest is exact if it is sound and lacks nothing: every label that holds of
a span has its node, and that node lists every way to derive it. In terms of
derivations this means that no last step of a derivation is lost.

## Main definitions

* `Forest.Exact`: A forest has what is true and nothing else.
* `Forest.Complete`: A forest has a node and a family for every derivation.

## Theorems

* `matched_of_labels`: The match that a family of two children goes on from.
* `Exact.binary`: The last step of a match has its family.
* `Exact.complete`: An exact forest loses no derivation step.
-/

namespace EarleyForest

variable {T N : Type} {g : Grammar T N} {input : List T} {f : Forest T N}

/-- A forest has the nodes that it should have, with the families that they
    should have, and nothing else. -/
structure Forest.Exact (g : Grammar T N) (input : List T) (f : Forest T N) : Prop where
  sound : f.Sound g input
  has {label : Label T N} {span : Span} : label.Holds g input span → ∃ id, f.Has id label span
  lists {id : NodeId} {label : Label T N} {span : Span} {family : Family} :
    f.Has id label span → f.Way g label span family → f.Lists id label span family

/-- The forest has a node for each derivation that the start symbol leads to,
    and the node lists a family for each last step of it. -/
structure Forest.Complete (g : Grammar T N) (input : List T) (f : Forest T N) : Prop where
  /-- A label and a span have one node at most. -/
  unique {id id' : NodeId} {label : Label T N} {span : Span} :
    f.Has id label span → f.Has id' label span → id = id'
  nonterminal {n : N} {i j : Nat} : g.Reaches input n i → g.Derives input [.nonterminal n] i j →
    ∃ id, f.Has id (.nonterminal n) ⟨i, j⟩
  intermediate {rule dot i j : Nat} {r : Rule T N} : g.rules[rule]? = some r →
    g.Reaches input r.head i → 2 ≤ dot → dot < r.body.length →
    g.Derives input (r.body.take dot) i j → ∃ id, f.Has id (.intermediate rule dot) ⟨i, j⟩
  epsilon {n : N} {i : Nat} : Rule.epsilon n ∈ g.rules → g.Reaches input n i →
    ∃ id, f.Lists id (.nonterminal n) ⟨i, i⟩ .epsilon
  unary {n : N} {s : Symbol T N} {i j : Nat} : ⟨n, [s]⟩ ∈ g.rules → g.Reaches input n i →
    g.Derives input [s] i j →
    ∃ id child, f.Has child s.label ⟨i, j⟩ ∧ f.Lists id (.nonterminal n) ⟨i, j⟩ (.unary child)
  /-- The first `dot` symbols of a rule, one or more, with the next symbol
      behind them. -/
  binary {rule dot i k j : Nat} {r : Rule T N} {s : Symbol T N} : g.rules[rule]? = some r →
    g.Reaches input r.head i → 1 ≤ dot → r.body[dot]? = some s →
    g.Derives input (r.body.take dot) i k → g.Derives input [s] k j →
    ∃ before after id left right, g.labelAt? rule dot = some before ∧
      g.labelAt? rule (dot + 1) = some after ∧ f.Has left before ⟨i, k⟩ ∧
      f.Has right s.label ⟨k, j⟩ ∧ f.Lists id after ⟨i, j⟩ (.binary left right)

/-- If a match of a rule and the same match with one symbol more hold, so far
    as their labels say, then the shorter one is a match of this rule. -/
theorem Grammar.matched_of_labels {rule dot i k j : Nat} {before after : Label T N}
    (hbefore : g.labelAt? rule dot = some before) (hafter : g.labelAt? rule (dot + 1) = some after)
    (hleft : before.Holds g input ⟨i, k⟩) (hwhole : after.Holds g input ⟨i, j⟩) :
    g.Matched input rule dot i k := by
  cases dot with
  | zero => rw [labelAt?_zero] at hbefore; cases hbefore
  | succ dot =>
      rcases labelAt?_eq_some_iff.mp hbefore with ⟨r, hr, s, hs, hbefore⟩
      rcases labelAt?_eq_some_iff.mp hafter with ⟨r', hr', s', hs', hafter⟩
      rw [hr, Option.some.injEq] at hr'
      subst hr'
      have hlt := (List.getElem?_eq_some_iff.mp hs').1
      rw [if_neg fun h => absurd h.1 (Nat.succ_ne_zero dot)] at hafter
      by_cases hfirst : dot = 0 ∧ 1 < r.body.length
      · -- The match is one symbol out of several. That its rule is asked for
        -- is known from the longer match only.
        rw [if_pos hfirst] at hbefore
        subst hbefore
        have hderives := Symbol.derives_of_label_holds hleft
        have hasked : g.Reaches input r.head i := by
          split at hafter
          · subst hafter
            exact hwhole.1
          · subst hafter
            exact ((matched_iff hr).mp hwhole.2.2).2.1
        refine ⟨r, hr, Nat.le_of_lt hlt, hasked, ?_⟩
        rw [List.take_add_one, hs, hfirst.1, List.take_zero]
        exact hderives
      · rw [if_neg hfirst, if_neg (Nat.ne_of_lt hlt)] at hbefore
        subst hbefore
        exact hleft.2.2

/-- A node lists every way to derive what holds. -/
theorem Forest.Exact.lists_of_holds (h : f.Exact g input) {label : Label T N} {span : Span}
    {family : Family} (hholds : label.Holds g input span) (hway : f.Way g label span family) :
    ∃ id, f.Lists id label span family := by
  rcases h.has hholds with ⟨id, hhas⟩
  exact ⟨id, h.lists hhas hway⟩

/-- An exact forest has the last step of every match of two symbols or more. -/
theorem Forest.Exact.binary (h : f.Exact g input) {rule dot i k j : Nat} {s : Symbol T N}
    (hmatched : g.Matched input rule dot i k) (hpos : 1 ≤ dot)
    (hs : g.symbolAt? rule dot = some s) (hnext : g.Derives input [s] k j) :
    ∃ before after id left right, g.labelAt? rule dot = some before ∧
      g.labelAt? rule (dot + 1) = some after ∧ f.Has left before ⟨i, k⟩ ∧
      f.Has right s.label ⟨k, j⟩ ∧ f.Lists id after ⟨i, j⟩ (.binary left right) := by
  rcases Grammar.symbolAt?_eq_some_iff.mp hs with ⟨r, hr, hs'⟩
  have hlt := (List.getElem?_eq_some_iff.mp hs').1
  have hafter := Grammar.labelAt?_succ hr hs'
  rcases Nat.exists_eq_add_of_le' hpos with ⟨d, rfl⟩
  have hbefore := Grammar.labelAt?_succ hr (List.getElem?_eq_getElem (Nat.lt_of_succ_lt hlt))
  rcases h.has (hmatched.holds hbefore) with ⟨left, hleft⟩
  -- The next symbol is asked for, if it is a nonterminal, so it has its node.
  have hright : s.label.Holds g input ⟨k, j⟩ := by
    refine Symbol.label_holds (fun n hn => ?_) hnext
    rw [hn] at hs
    exact hmatched.reaches hs
  rcases h.has hright with ⟨right, hright⟩
  rcases h.lists_of_holds ((hmatched.move hs hnext).holds hafter)
    (.binary hbefore hs hafter hleft hright) with ⟨id, hlists⟩
  exact ⟨_, _, id, left, right, hbefore, hafter, hleft, hright, hlists⟩

/-- An exact forest loses no derivation. -/
theorem Forest.Exact.complete (h : f.Exact g input) : f.Complete g input where
  unique := h.sound.unique
  nonterminal hasked hderives := h.has ⟨hasked, hderives⟩
  intermediate hr hasked hdot hlt hderives :=
    h.has ⟨hdot, ⟨_, hr, hlt⟩, _, hr, Nat.le_of_lt hlt, hasked, hderives⟩
  epsilon {n i} hrule hasked := by
    have hholds : (Label.nonterminal n : Label T N).Holds g input ⟨i, i⟩ :=
      ⟨hasked, Grammar.derives_nonterminal_iff.mpr ⟨_, hrule, rfl, .nil i⟩⟩
    exact h.lists_of_holds hholds (.epsilon hrule)
  unary {n s i j} hrule hasked hderives := by
    have hchild : s.label.Holds g input ⟨i, j⟩ := by
      refine Symbol.label_holds (fun n' hn => ?_) hderives
      exact .body hasked hrule (congrArg (· :: []) hn) (.nil i)
    have hholds : (Label.nonterminal n : Label T N).Holds g input ⟨i, j⟩ :=
      ⟨hasked, Grammar.derives_nonterminal_iff.mpr ⟨_, hrule, rfl, hderives⟩⟩
    rcases h.has hchild with ⟨child, hbelow⟩
    rcases h.lists_of_holds hholds (.unary hrule hbelow) with ⟨id, hlists⟩
    exact ⟨id, child, hbelow, hlists⟩
  binary hr hasked hpos hs hfirst hnext :=
    h.binary ⟨_, hr, Nat.le_of_lt (List.getElem?_eq_some_iff.mp hs).1, hasked, hfirst⟩ hpos
      ((Grammar.symbolAt?_of_rule hr _).trans hs) hnext

end EarleyForest
