import EarleyForest.Proofs.Chart.Closing

/-!
# Completeness of the Chart

When all work has been done, every match there is has its item, unless that
item would expect a terminal that does not come next.

The proof follows the derivations. An item moves on over a terminal because
of the shift, and over a nonterminal because the rule by which that derives
its part of the input has been predicted where the item stands, has moved on
over its own body by the same argument, and has completed the nonterminal. So
the items of a rule follow a derivation from the start of its body to the end,
and items that ask for a nonterminal are there wherever the start symbol leads
to it.

## Theorems

* `Settled.completed`: What a complete item has done.
* `takes_of_derives`: An item follows a derivation.
* `fresh_of_reaches`: A nonterminal asked for has its rules in the column.
* `Settled.contains_iff`: Which items a column has.
* `Settled.advances`: An item moves on over whatever its next symbol derives.
-/

namespace EarleyForest

namespace Stage

variable {T N : Type} [DecidableEq T] [DecidableEq N] {g : Grammar T N} {input : List T}
  {s : Stage T N} {done : List Item}

namespace Settled

omit [DecidableEq T]

/-- All items but those that have waited for a shift have been handled. -/
theorem handled [DecidableEq T] (hs : s.Settled g input done) {j : Nat} {item : Item}
    (hitem : item ∈ (s.front.columnAt j).items) (hnext : item.expectsTerminal g = false) :
    s.Handled done j item :=
  handled_of_agenda_nil hs.invariant.ordered hs.agenda hitem hnext

/-- A complete item has the node of its head, and all items that waited for the
    head have moved on over it. -/
theorem completed [DecidableEq T] (hs : s.Settled g input done) {rule k j : Nat} {r : Rule T N}
    (hj : j ≤ input.length) (hr : g.rules[rule]? = some r)
    (hwhole : s.Takes g input j rule r.body.length k) :
    ∃ v, s.forest.Has v (.nonterminal r.head) ⟨k, j⟩ ∧
      (r.body = [] → s.forest.Lists v (.nonterminal r.head) ⟨k, j⟩ .epsilon) ∧
      ∀ e ∈ (s.front.columnAt k).items, e.next? g = some (.nonterminal r.head) →
        s.Advances g input j e v := by
  -- No symbol is left, so the item is there whatever comes next.
  have hend : g.symbolAt? rule r.body.length = none := by
    rw [Grammar.symbolAt?_of_rule hr, List.getElem?_eq_none (Nat.le_refl _)]
  have hviable : g.Viable input[j]? rule r.body.length :=
    Grammar.viable_iff.mpr (Or.inl hend)
  rcases Column.contains_eq_true_iff.mp (hwhole hviable) with ⟨item, hitem, hkey⟩
  rw [Item.key, Prod.mk.injEq, Prod.mk.injEq] at hkey
  rcases hkey with ⟨rfl, hdot, rfl⟩
  have hnext : item.next? g = none := by
    rw [Item.next?, hdot, hend]
  rw [← hs.position] at hj
  have hlast : r.body[item.dot]? = none := by
    rw [hdot, List.getElem?_eq_none (Nat.le_refl _)]
  rcases hs.invariant.worked.completed hj
      (hs.handled hitem (Item.expectsTerminal_of_complete hnext)) hr hlast with
    ⟨v, hhas, hempty, hadvances⟩
  exact ⟨v, hhas, hempty, fun e he hawaits =>
    hadvances e (hs.handled he (Item.expectsTerminal_of_nonterminal hawaits)) hawaits⟩

/-- An item that waits for a nonterminal has its rules in the same column. -/
theorem predicted [DecidableEq T] (hs : s.Settled g input done) {k : Nat} {e : Item}
    {r : Rule T N} {rule : Nat} (hk : k ≤ input.length) (he : e ∈ (s.front.columnAt k).items)
    (hnext : e.next? g = some (.nonterminal r.head)) (hr : g.rules[rule]? = some r) :
    s.Takes g input k rule 0 k := by
  rw [← hs.position] at hk
  exact hs.invariant.worked.predicted hk
    (hs.handled he (Item.expectsTerminal_of_nonterminal hnext)) hnext rule
    (Grammar.mem_rulesFor_iff.mpr ⟨r, hr, rfl⟩)

/-- An item moves on over the next terminal. -/
theorem shifted [DecidableEq T] (hs : s.Settled g input done) {k : Nat} {e : Item} {t : T}
    (he : e ∈ (s.front.columnAt k).items) (hnext : e.next? g = some (.terminal t))
    (ht : input[k]? = some t) :
    ∃ v, s.forest.Has v (.terminal t) ⟨k, k + 1⟩ ∧ s.Advances g input (k + 1) e v := by
  have hk := (List.getElem?_eq_some_iff.mp ht).1
  rw [← hs.position] at hk
  exact hs.invariant.worked.shifted hk he hnext

end Settled

omit [DecidableEq T] [DecidableEq N] in
/-- The item of a key that a column takes, if what it expects can come next. -/
theorem Takes.item {j rule dot origin : Nat} (h : s.Takes g input j rule dot origin)
    (hviable : g.Viable input[j]? rule dot) :
    ∃ item ∈ (s.front.columnAt j).items,
      item.rule = rule ∧ item.dot = dot ∧ item.origin = origin := by
  rcases Column.contains_eq_true_iff.mp (h hviable) with ⟨item, hitem, hkey⟩
  rw [Item.key, Prod.mk.injEq, Prod.mk.injEq] at hkey
  exact ⟨item, hitem, hkey⟩

/-- An item follows a derivation of the next symbols of its rule: if the column
    where they start takes it, the column where they end takes it with the dot
    behind them. -/
theorem takes_of_derives (hs : s.Settled g input done) {symbols : List (Symbol T N)} {k j : Nat}
    (hderives : g.Derives input symbols k j) (hj : j ≤ input.length) {rule dot origin : Nat}
    {r : Rule T N} {behind : List (Symbol T N)} (hr : g.rules[rule]? = some r)
    (hparts : r.body.drop dot = symbols ++ behind) (htakes : s.Takes g input k rule dot origin) :
    s.Takes g input j rule (dot + symbols.length) origin := by
  -- By induction on the derivation. The item is taken from column to column,
  -- over one symbol at a time.
  induction hderives generalizing rule dot origin r behind with
  | nil i => exact htakes
  | @terminal t rest i j ht hrest ih =>
      -- The terminal comes next, so the item is not left out and waits for the
      -- shift.
      have hs' : g.symbolAt? rule dot = some (.terminal t) := by
        rw [Grammar.symbolAt?_of_rule hr, ← List.head?_drop, hparts]
        rfl
      have hviable : g.Viable input[i]? rule dot :=
        Grammar.viable_iff.mpr (Or.inr (Or.inr ⟨t, hs', ht⟩))
      rcases htakes.item hviable with ⟨e, he, rfl, rfl, rfl⟩
      rcases hs.shifted he hs' ht with ⟨v, _, hadvance⟩
      have hparts' : r.body.drop (e.dot + 1) = rest ++ behind := by
        rw [← List.tail_drop, hparts]
        rfl
      have hend := ih hj hr hparts' hadvance.1
      rwa [Nat.add_assoc, Nat.add_comm 1] at hend
  | @nonterminal r' n rest i k j hrule hhead hbody hrest ihBody ihRest =>
      have hs' : g.symbolAt? rule dot = some (.nonterminal r'.head) := by
        rw [Grammar.symbolAt?_of_rule hr, ← List.head?_drop, hparts, hhead]
        rfl
      have hviable : g.Viable input[i]? rule dot :=
        Grammar.viable_iff.mpr (Or.inr (Or.inl ⟨r'.head, hs'⟩))
      rcases htakes.item hviable with ⟨e, he, rfl, rfl, rfl⟩
      have hk : k ≤ input.length := Nat.le_trans hrest.le hj
      rcases List.getElem?_of_mem hrule with ⟨rule', hr'⟩
      -- The rule of the nonterminal follows its own derivation first.
      have hfresh := hs.predicted (Nat.le_trans hbody.le hk) he hs' hr'
      have hall : r'.body.drop 0 = r'.body ++ [] := (List.append_nil r'.body).symm
      have hwhole := ihBody hk hr' hall hfresh
      rw [Nat.zero_add] at hwhole
      -- Its complete item takes the waiting one on, and that follows the rest.
      rcases hs.completed hk hr' hwhole with ⟨v, _, _, hadvances⟩
      have hparts' : r.body.drop (e.dot + 1) = rest ++ behind := by
        rw [← List.tail_drop, hparts]
        rfl
      have hend := ihRest hj hr hparts' (hadvances e he hs').1
      rwa [Nat.add_assoc, Nat.add_comm 1] at hend

/-- Where a nonterminal is asked for its rules are in the column. -/
theorem fresh_of_reaches (hs : s.Settled g input done) {n : N} {i : Nat}
    (hasked : g.Reaches input n i) {rule : Nat} {r : Rule T N} (hr : g.rules[rule]? = some r)
    (hhead : r.head = n) : s.Takes g input i rule 0 i := by
  -- By induction on the way in which the nonterminal is asked for.
  induction hasked generalizing rule r with
  | start => exact hs.invariant.worked.started (Grammar.mem_rulesFor_iff.mpr ⟨r, hr, hhead⟩)
  | @body r' before behind n i k hasked hrule hparts hderives ih =>
      rcases List.getElem?_of_mem hrule with ⟨rule', hr'⟩
      have hk : k ≤ input.length := hderives.le_length hasked.le_length
      have hall : r'.body.drop 0 = before ++ .nonterminal n :: behind := hparts
      -- The rule that asks for it has its item here with the dot before it.
      have hthere := takes_of_derives hs hderives hk hr' hall (ih hr' rfl)
      rw [Nat.zero_add] at hthere
      have hs' : g.symbolAt? rule' before.length = some (.nonterminal r.head) := by
        rw [Grammar.symbolAt?_of_rule hr', hparts, List.getElem?_append_right (Nat.le_refl _),
          Nat.sub_self, hhead]
        rfl
      have hviable : g.Viable input[k]? rule' before.length :=
        Grammar.viable_iff.mpr (Or.inr (Or.inl ⟨r.head, hs'⟩))
      rcases hthere.item hviable with ⟨e, he, rfl, hdot, rfl⟩
      rw [← hdot] at hs'
      exact hs.predicted hk he hs' hr

/-- A match has its item in the column where it ends. -/
theorem takes_of_matched (hs : s.Settled g input done) {rule dot i j : Nat}
    (h : g.Matched input rule dot i j) : s.Takes g input j rule dot i := by
  have hj := h.le_length
  rcases h with ⟨r, hr, hdot, hasked, hderives⟩
  have hfresh := fresh_of_reaches hs hasked hr rfl
  have hall : r.body.drop 0 = r.body.take dot ++ r.body.drop dot :=
    (List.take_append_drop dot r.body).symm
  have hend := takes_of_derives hs hderives hj hr hall hfresh
  rwa [List.length_take_of_le hdot, Nat.zero_add] at hend

namespace Settled

/-- A column has the items of the matches that end there and that do not
    expect a terminal other than the next one. -/
theorem contains_iff (hs : s.Settled g input done) {rule dot origin j : Nat}
    (hj : j ≤ input.length) :
    (s.front.columnAt j).contains rule dot origin = true ↔
      g.Matched input rule dot origin j ∧ g.Viable input[j]? rule dot := by
  constructor
  · intro hcontains
    rcases Column.contains_eq_true_iff.mp hcontains with ⟨item, hitem, hkey⟩
    rw [Item.key, Prod.mk.injEq, Prod.mk.injEq] at hkey
    rcases hkey with ⟨rfl, rfl, rfl⟩
    rw [← hs.position] at hj
    exact ⟨(hs.invariant.sound.found hj hitem).matched, hs.invariant.sound.viable hj hitem⟩
  · rintro ⟨hmatched, hviable⟩
    exact takes_of_matched hs hmatched hviable

/-- An item moves on over whatever its next symbol derives. -/
theorem advances (hs : s.Settled g input done) {k j : Nat} {e : Item} {symbol : Symbol T N}
    (hk : k ≤ input.length) (he : e ∈ (s.front.columnAt k).items)
    (hnext : e.next? g = some symbol) (hderives : g.Derives input [symbol] k j) :
    ∃ v, s.forest.Has v symbol.label ⟨k, j⟩ ∧ s.Advances g input j e v := by
  cases symbol with
  | terminal t =>
      rcases Grammar.derives_terminal_iff.mp hderives with ⟨ht, rfl⟩
      exact hs.shifted he hnext ht
  | nonterminal n =>
      have hj : j ≤ input.length := hderives.le_length hk
      -- The rule by which the nonterminal derives the span has been offered, and
      -- its item is complete by now.
      rcases Grammar.derives_nonterminal_iff.mp hderives with ⟨r, hrule, rfl, hbody⟩
      rcases List.getElem?_of_mem hrule with ⟨rule, hr⟩
      have hall : r.body.drop 0 = r.body ++ [] := (List.append_nil r.body).symm
      have hwhole := takes_of_derives hs hbody hj hr hall (hs.predicted hk he hnext hr)
      rw [Nat.zero_add] at hwhole
      rcases hs.completed hj hr hwhole with ⟨v, hhas, _, hadvances⟩
      exact ⟨v, hhas, hadvances e he hnext⟩

end Settled

end Stage

end EarleyForest
