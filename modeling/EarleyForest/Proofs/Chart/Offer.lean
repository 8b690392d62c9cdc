import EarleyForest.Chart.Front
import EarleyForest.Proofs.Grammar.Prefix

/-!
# Taking Items In

Offers to the open column are taken in one after the other. What comes of
them all is said at once: the column gets some of the items offered at its
end, none with the key of another, and these go on to the agenda or wait for
the shift, according to what they expect. An item offered is left out only if
its key is there or it expects a terminal that does not come next.

## Main definitions

* `Grammar.Viable`: No terminal but the next one is expected.
* `Item.expectsTerminal`: An item waits for the shift.
* `Column.Distinct`: The items of a column have different keys.
* `Front.taking`: A column that has taken items in.

## Theorems

* `Grammar.viable_iff`: What may stand behind the dot.
* `offer_spec`, `offerAll_spec`: What offers come to.
* `closed_offerAll`: What offers leave alone.
-/

namespace EarleyForest

variable {T N : Type}

/-- What stands behind a dot is not a terminal other than the next one. -/
def Grammar.Viable (g : Grammar T N) (next : Option T) (rule dot : Nat) : Prop :=
  ∀ t, g.symbolAt? rule dot = some (.terminal t) → next = some t

/-- Nothing may stand behind the dot, or a nonterminal, or the next terminal. -/
theorem Grammar.viable_iff {g : Grammar T N} {next : Option T} {rule dot : Nat} :
    g.Viable next rule dot ↔ g.symbolAt? rule dot = none ∨
      (∃ n, g.symbolAt? rule dot = some (.nonterminal n)) ∨
      ∃ t, g.symbolAt? rule dot = some (.terminal t) ∧ next = some t := by
  constructor
  · intro hviable
    cases hs : g.symbolAt? rule dot with
    | none => exact Or.inl rfl
    | some symbol =>
        cases symbol with
        | terminal t => exact Or.inr (Or.inr ⟨t, rfl, hviable t hs⟩)
        | nonterminal n => exact Or.inr (Or.inl ⟨n, rfl⟩)
  · rintro (hs | ⟨n, hs⟩ | ⟨t', hs, hnext⟩) t ht
    · rw [hs] at ht
      cases ht
    · rw [hs] at ht
      cases ht
    · rw [hs, Option.some.injEq, Symbol.terminal.injEq] at ht
      rw [hnext, ht]

/-- The item waits for the step to the next position. -/
def Item.expectsTerminal (g : Grammar T N) (item : Item) : Bool :=
  match item.next? g with
  | some (.terminal _) => true
  | _ => false

theorem Item.expectsTerminal_eq_true_iff {g : Grammar T N} {item : Item} :
    item.expectsTerminal g = true ↔ ∃ t, item.next? g = some (.terminal t) := by
  unfold expectsTerminal
  split
  · rename_i t ht
    exact ⟨fun _ => ⟨t, ht⟩, fun _ => rfl⟩
  · rename_i hnot
    exact ⟨(fun h => by cases h), fun ⟨t, ht⟩ => absurd ht (hnot t)⟩

theorem Item.expectsTerminal_of_nonterminal {g : Grammar T N} {item : Item} {n : N}
    (h : item.next? g = some (.nonterminal n)) : item.expectsTerminal g = false := by
  simp only [expectsTerminal, h]

theorem Item.expectsTerminal_of_complete {g : Grammar T N} {item : Item}
    (h : item.next? g = none) : item.expectsTerminal g = false := by
  simp only [expectsTerminal, h]

namespace Column

/-- A column has its items under different keys. -/
def Distinct (c : Column) : Prop := (c.items.map Item.key).Nodup

theorem distinct_empty : empty.Distinct := List.nodup_nil

/-- An item with a new key keeps the keys different. -/
theorem Distinct.append {c : Column} {item : Item} (h : c.Distinct)
    (hnew : c.contains item.rule item.dot item.origin = false) :
    Column.Distinct ⟨c.items ++ [item]⟩ := by
  rw [Distinct, List.map_append, List.nodup_append]
  refine ⟨h, List.pairwise_singleton _ _, fun a ha b hb heq => ?_⟩
  rcases List.mem_map.mp ha with ⟨other, hother, rfl⟩
  rw [List.map_singleton, List.mem_singleton] at hb
  have hthere := contains_eq_true_iff.mpr ⟨other, hother, heq.trans hb⟩
  rw [hnew] at hthere
  cases hthere

/-- A column contains what it did when items have been added. -/
theorem contains_append {c : Column} {rule dot origin : Nat}
    (h : c.contains rule dot origin = true) (added : List Item) :
    Column.contains ⟨c.items ++ added⟩ rule dot origin = true := by
  rcases contains_eq_true_iff.mp h with ⟨item, hitem, hkey⟩
  exact contains_eq_true_iff.mpr ⟨item, List.mem_append_left _ hitem, hkey⟩

end Column

namespace Front

/-- The open column with more items at its end, each of which is on the agenda
    or waits for the shift. -/
def taking (g : Grammar T N) (s : Front T N) (added : List Item) : Front T N :=
  { s with
    column := ⟨s.column.items ++ added⟩
    agenda := s.agenda ++ added.filter fun item => !item.expectsTerminal g
    shifting := s.shifting ++ added.filter fun item => item.expectsTerminal g }

theorem taking_nil (g : Grammar T N) (s : Front T N) : s.taking g [] = s := by
  simp only [taking, List.filter_nil, List.append_nil]

theorem taking_taking (g : Grammar T N) (s : Front T N) (first second : List Item) :
    (s.taking g first).taking g second = s.taking g (first ++ second) := by
  simp only [taking, List.filter_append, List.append_assoc]

variable {g : Grammar T N}

theorem taking_singleton_of_terminal (s : Front T N) {item : Item} {t : T}
    (h : item.next? g = some (.terminal t)) : s.taking g [item] =
      { s with column := s.column.add item, shifting := s.shifting ++ [item] } := by
  have hterminal : item.expectsTerminal g = true := Item.expectsTerminal_eq_true_iff.mpr ⟨t, h⟩
  simp only [taking, Column.add, List.filter_cons, hterminal, Bool.not_true, Bool.false_eq_true,
    if_false, if_true, List.filter_nil, List.append_nil]

theorem taking_singleton_of_not_terminal (s : Front T N) {item : Item}
    (h : item.expectsTerminal g = false) : s.taking g [item] =
      { s with column := s.column.add item, agenda := s.agenda ++ [item] } := by
  simp only [taking, Column.add, List.filter_cons, h, Bool.not_false, Bool.false_eq_true,
    if_false, if_true, List.filter_nil, List.append_nil]

variable [DecidableEq T]

/-- An item offered is taken in, unless its key is there or it expects a
    terminal that does not come next. -/
theorem offer_spec (s : Front T N) (item : Item) :
    s.offer g item = s.taking g [item] ∧
        s.column.contains item.rule item.dot item.origin = false ∧
        g.Viable s.lookahead item.rule item.dot ∨
      s.offer g item = s ∧
        (g.Viable s.lookahead item.rule item.dot →
          s.column.contains item.rule item.dot item.origin = true) := by
  cases hcontains : s.column.contains item.rule item.dot item.origin with
  | true => exact Or.inr ⟨by rw [offer, if_pos hcontains], fun _ => rfl⟩
  | false =>
      have hnot : ¬ s.column.contains item.rule item.dot item.origin = true := by
        rw [hcontains]
        exact Bool.false_ne_true
      cases hterminal : item.expectsTerminal g with
      | true =>
          rcases Item.expectsTerminal_eq_true_iff.mp hterminal with ⟨t, ht⟩
          -- A terminal keeps the item out if it is not the next one.
          by_cases hlook : s.lookahead = some t
          · refine Or.inl ⟨?_, rfl, fun t' ht' => ?_⟩
            · rw [taking_singleton_of_terminal s ht]
              simp only [offer, if_neg hnot, ht, if_pos hlook]
            · rw [Item.next?, ht', Option.some.injEq, Symbol.terminal.injEq] at ht
              rw [hlook, ht]
          · refine Or.inr ⟨?_, fun hviable => absurd (hviable t ht) hlook⟩
            simp only [offer, if_neg hnot, ht, if_neg hlook]
      | false =>
          -- The item expects a nonterminal or nothing at all.
          have hnone : ∀ t, item.next? g ≠ some (.terminal t) := by
            intro t ht
            rw [Item.expectsTerminal_eq_true_iff.mpr ⟨t, ht⟩] at hterminal
            cases hterminal
          refine Or.inl ⟨?_, rfl, fun t ht => absurd ht (hnone t)⟩
          rw [taking_singleton_of_not_terminal s hterminal, offer, if_neg hnot]
          split
          · rename_i t ht
            exact absurd ht (hnone t)
          · rfl

/-- Of the items offered some are taken in. They are viable and come under
    different keys, and afterwards no viable item offered is missing. -/
theorem offerAll_spec (items : List Item) (s : Front T N) :
    ∃ added, s.offerAll g items = s.taking g added ∧
      (∀ item ∈ added, item ∈ items ∧ g.Viable s.lookahead item.rule item.dot) ∧
      (s.column.Distinct → (s.taking g added).column.Distinct) ∧
      ∀ item ∈ items, g.Viable s.lookahead item.rule item.dot →
        (s.taking g added).column.contains item.rule item.dot item.origin = true := by
  -- By induction on the offers, with the column as the ones before have left
  -- it.
  induction items generalizing s with
  | nil =>
      refine ⟨[], (taking_nil g s).symm, fun _ h => absurd h List.not_mem_nil, fun h => ?_,
        fun _ h => absurd h List.not_mem_nil⟩
      rw [taking_nil]
      exact h
  | cons item rest ih =>
      have hrun : s.offerAll g (item :: rest) = (s.offer g item).offerAll g rest := rfl
      rcases offer_spec (g := g) s item with ⟨hoffer, hnew, hviable⟩ | ⟨hoffer, hthere⟩
      · -- The item is taken in first, then some of the others.
        rcases ih (s.taking g [item]) with ⟨added, hall, hadded, hdistinct, htaken⟩
        rw [taking_taking] at hall hdistinct htaken
        refine ⟨[item] ++ added, by rw [hrun, hoffer, hall], fun other hother => ?_,
          fun h => hdistinct (h.append hnew), fun other hother hother' => ?_⟩
        · rcases List.mem_append.mp hother with hother | hother
          · rw [List.mem_singleton.mp hother]
            exact ⟨List.mem_cons_self, hviable⟩
          · exact ⟨List.mem_cons_of_mem _ (hadded other hother).1, (hadded other hother).2⟩
        · rcases List.mem_cons.mp hother with rfl | hother
          · refine Column.contains_eq_true_iff.mpr ⟨other, ?_, rfl⟩
            exact List.mem_append_right _ (List.mem_append_left _ (List.mem_singleton_self _))
          · exact htaken other hother hother'
      · rcases ih s with ⟨added, hall, hadded, hdistinct, htaken⟩
        refine ⟨added, by rw [hrun, hoffer, hall], fun other hother => ?_, hdistinct,
          fun other hother hother' => ?_⟩
        · exact ⟨List.mem_cons_of_mem _ (hadded other hother).1, (hadded other hother).2⟩
        · rcases List.mem_cons.mp hother with rfl | hother
          · exact Column.contains_append (hthere hother') added
          · exact htaken other hother hother'

/-- Offers do nothing to the closed columns and to the mark. -/
theorem closed_offerAll (g : Grammar T N) (s : Front T N) (items : List Item) :
    (s.offerAll g items).closed = s.closed ∧ (s.offerAll g items).mark = s.mark := by
  rcases offerAll_spec (g := g) items s with ⟨added, hoffer, _⟩
  rw [hoffer]
  exact ⟨rfl, rfl⟩

end Front

end EarleyForest
