import EarleyForest.Grammar.Derivation

/-!
# Matched Prefixes

What an item of a chart claims, said without charts: the first symbols of a
rule's body, up to a dot, derive the input from one position to another, and
the rule's head is asked for at the first of the two.

A match begins with no symbol at all where its head is asked for, and moves on
over one symbol after the other. A match that stops before a nonterminal asks
for that nonterminal where it stops.

## Main definitions

* `Grammar.Matched`: The first symbols of a rule are matched.

## Theorems

* `matched_iff`: What a match says, in terms of its rule.
* `matched_fresh`, `Matched.move`: How a match begins and moves on.
* `Matched.reaches`: A match asks for the nonterminal behind it.
* `Matched.derives`: What a match of a whole body derives.
* `Matched.le_length`: A match stays within the input.
-/

namespace EarleyForest

namespace Grammar

variable {T N : Type}

/-- The first `dot` symbols of rule `rule` derive the input from `i` to `j`,
    and the head of the rule is asked for at `i`. -/
def Matched (g : Grammar T N) (input : List T) (rule dot i j : Nat) : Prop :=
  ∃ r, g.rules[rule]? = some r ∧ dot ≤ r.body.length ∧ g.Reaches input r.head i ∧
    g.Derives input (r.body.take dot) i j

variable {g : Grammar T N} {input : List T}

theorem symbolAt?_of_rule {rule : Nat} {r : Rule T N} (hrule : g.rules[rule]? = some r)
    (dot : Nat) : g.symbolAt? rule dot = r.body[dot]? := by
  simp only [symbolAt?, hrule, Option.bind_some]

theorem symbolAt?_eq_some_iff {rule dot : Nat} {s : Symbol T N} :
    g.symbolAt? rule dot = some s ↔ ∃ r, g.rules[rule]? = some r ∧ r.body[dot]? = some s := by
  simp only [symbolAt?, Option.bind_eq_some_iff]

/-- One symbol more of a body is derived by parts. -/
theorem derives_take_succ_iff {body : List (Symbol T N)} {dot i j : Nat} {s : Symbol T N}
    (hs : body[dot]? = some s) :
    g.Derives input (body.take (dot + 1)) i j ↔
      ∃ k, g.Derives input (body.take dot) i k ∧ g.Derives input [s] k j := by
  rw [List.take_add_one, hs, Option.toList_some]
  exact derives_append_iff

/-- A nonterminal is asked for within the input. -/
theorem Reaches.le_length {n : N} {i : Nat} (h : g.Reaches input n i) : i ≤ input.length := by
  -- What comes before the nonterminal is derived within the input.
  induction h with
  | start => exact Nat.zero_le _
  | body _ _ _ derived ih => exact derived.le_length ih

/-- What a match says, in terms of its rule. -/
theorem matched_iff {rule : Nat} {r : Rule T N} (hr : g.rules[rule]? = some r) {dot i j : Nat} :
    g.Matched input rule dot i j ↔
      dot ≤ r.body.length ∧ g.Reaches input r.head i ∧
        g.Derives input (r.body.take dot) i j := by
  constructor
  · rintro ⟨r', hr', hmatched⟩
    rw [hr, Option.some.injEq] at hr'
    rwa [hr']
  · intro h
    exact ⟨r, hr, h⟩

theorem Matched.le {rule dot i j : Nat} (h : g.Matched input rule dot i j) : i ≤ j := by
  rcases h with ⟨r, _, _, _, hderives⟩
  exact hderives.le

/-- A match stays within the input. -/
theorem Matched.le_length {rule dot i j : Nat} (h : g.Matched input rule dot i j) :
    j ≤ input.length := by
  rcases h with ⟨r, _, _, hasked, hderives⟩
  exact hderives.le_length hasked.le_length

/-- A match of no symbol covers nothing. -/
theorem Matched.eq {rule i j : Nat} (h : g.Matched input rule 0 i j) : i = j := by
  rcases h with ⟨r, _, _, _, hderives⟩
  rw [List.take_zero] at hderives
  exact derives_nil_iff.mp hderives

/-- Nothing of a rule is matched yet where its head is asked for. -/
theorem matched_fresh [DecidableEq N] {n : N} {rule i : Nat} (hasked : g.Reaches input n i)
    (hrule : rule ∈ g.rulesFor n) : g.Matched input rule 0 i i := by
  rcases mem_rulesFor_iff.mp hrule with ⟨r, hr, rfl⟩
  exact ⟨r, hr, Nat.zero_le _, hasked, .nil i⟩

/-- A match asks for the nonterminal behind it. -/
theorem Matched.reaches {rule dot i j : Nat} {n : N} (h : g.Matched input rule dot i j)
    (hs : g.symbolAt? rule dot = some (.nonterminal n)) : g.Reaches input n j := by
  rcases h with ⟨r, hr, _, hasked, hderives⟩
  rw [symbolAt?_of_rule hr] at hs
  rcases List.getElem?_eq_some_iff.mp hs with ⟨hlt, hget⟩
  -- The body is what is matched, the nonterminal and the rest.
  have hparts : r.body = r.body.take dot ++ .nonterminal n :: r.body.drop (dot + 1) := by
    rw [← hget, ← List.drop_eq_getElem_cons hlt, List.take_append_drop]
  exact .body hasked (List.mem_of_getElem? hr) hparts hderives

/-- A match moves on over a symbol that derives what comes next. -/
theorem Matched.move {rule dot i k j : Nat} {s : Symbol T N} (h : g.Matched input rule dot i k)
    (hs : g.symbolAt? rule dot = some s) (hnext : g.Derives input [s] k j) :
    g.Matched input rule (dot + 1) i j := by
  rcases h with ⟨r, hr, _, hasked, hderives⟩
  rw [symbolAt?_of_rule hr] at hs
  exact ⟨r, hr, (List.getElem?_eq_some_iff.mp hs).1, hasked,
    (derives_take_succ_iff hs).mpr ⟨k, hderives, hnext⟩⟩

/-- A match behind which no symbol is left matches the whole body, so the head
    derives what the match covers. -/
theorem Matched.derives {rule dot i j : Nat} {r : Rule T N} (h : g.Matched input rule dot i j)
    (hr : g.rules[rule]? = some r) (hs : r.body[dot]? = none) :
    dot = r.body.length ∧ g.Derives input [.nonterminal r.head] i j := by
  rcases (matched_iff hr).mp h with ⟨hdot, _, hderives⟩
  have hlength := List.getElem?_eq_none_iff.mp hs
  have hall : dot = r.body.length := Nat.le_antisymm hdot hlength
  subst hall
  rw [List.take_length] at hderives
  exact ⟨rfl, derives_nonterminal_iff.mpr ⟨r, List.mem_of_getElem? hr, rfl, hderives⟩⟩

end Grammar

end EarleyForest
