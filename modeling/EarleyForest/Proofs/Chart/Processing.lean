import EarleyForest.Proofs.Chart.Join

/-!
# Processing an Item

What processing one item of the open column gives rise to. All items offered
are found at the current position, and the forest stays sound.

An item that expects a nonterminal offers that nonterminal's rules, and moves
on itself if the nonterminal is known to match the empty span here. A complete
item has a node for its head, and every item that waits for that head in the
column where it began moves on over that node.

## Main definitions

* `Front.Remembers`: The nonterminals remembered have the nodes remembered.
* `Yield.Found`: What an item gives rise to is true.
* `Yield.Moves`: An item is offered with its dot moved on over a node.
* `Yield.Handles`: All is done that an item gives rise to.

## Theorems

* `process_complete`, `process_terminal`, `process_nonterminal`: Processing an
  item by what comes behind its dot.
* `process_spec`: Processing an item handles it.
-/

namespace EarleyForest

variable {T N : Type}

/-- The nonterminals remembered as matched over the empty span at a position
    have the nodes that are remembered for them. -/
def Forest.Remembers [DecidableEq N] (f : Forest T N) (position : Nat)
    (nullable : List (N × NodeId)) : Prop :=
  ∀ n v, nullable.lookup n = some v → f.Has v (.nonterminal n) ⟨position, position⟩

namespace Yield

/-- An item is offered with its dot moved on over a node, and the step is on
    record. -/
def Moves (g : Grammar T N) (y : Yield T N) (position : Nat) (item : Item) (right : NodeId) :
    Prop :=
  (∃ moved ∈ y.offers, moved.key = item.keyAfter) ∧ y.forest.Records g item right position

variable [DecidableEq T] [DecidableEq N]

/-- What an item gives rise to is true: the forest has grown and is sound, and
    the items offered and the nonterminals remembered are right. -/
structure Found (g : Grammar T N) (input : List T) (s : Front T N) (f : Forest T N)
    (y : Yield T N) : Prop where
  grows : f.Grows y.forest
  opened : y.forest.Open g input s.mark s.position
  offers {item : Item} : item ∈ y.offers → item.Found g input y.forest s.position
  nullable : y.forest.Remembers s.position y.nullable

/-- All is done that an item gives rise to. -/
structure Handles (g : Grammar T N) (s : Front T N) (item : Item) (y : Yield T N) : Prop where
  /-- The rules of the nonterminal expected are offered. -/
  predicted {n : N} : item.next? g = some (.nonterminal n) →
    ∀ rule ∈ g.rulesFor n, Item.fresh s.position rule ∈ y.offers
  /-- The item moves on over a nonterminal that is remembered. -/
  stepped {n : N} {v : NodeId} : item.next? g = some (.nonterminal n) →
    s.nullable.lookup n = some v → y.Moves g s.position item v
  /-- The items that wait for the head move on over its node. -/
  completed {r : Rule T N} : g.rules[item.rule]? = some r → r.body[item.dot]? = none →
    ∃ v, y.forest.Has v (.nonterminal r.head) ⟨item.origin, s.position⟩ ∧
      (r.body = [] →
        y.forest.Lists v (.nonterminal r.head) ⟨item.origin, s.position⟩ .epsilon) ∧
      (∀ e ∈ (s.columnAt item.origin).items, e.next? g = some (.nonterminal r.head) →
        y.Moves g s.position e v) ∧
      (item.origin = s.position → ∃ v, y.nullable.lookup r.head = some v)
  /-- Nonterminals are not forgotten. -/
  kept {n : N} {v : NodeId} : s.nullable.lookup n = some v → ∃ v, y.nullable.lookup n = some v

end Yield

variable {g : Grammar T N} {input : List T} {f f' : Forest T N}

/-- Items that have all moved on over a node are offered with their dots
    moved. -/
theorem Yield.moves_of_keys {y : Yield T N} {position : Nat} {items moved : List Item}
    {right : NodeId} (hkeys : moved.map Item.key = items.map Item.keyAfter)
    (hoffers : ∀ e ∈ moved, e ∈ y.offers)
    (hrecords : ∀ item ∈ items, y.forest.Records g item right position) {item : Item}
    (hitem : item ∈ items) : y.Moves g position item right := by
  have hkey : item.keyAfter ∈ moved.map Item.key := by
    rw [hkeys]
    exact List.mem_map_of_mem hitem
  rcases List.mem_map.mp hkey with ⟨e, he, heq⟩
  exact ⟨⟨e, hoffers e he, heq⟩, hrecords item hitem⟩

variable [DecidableEq N]

theorem Forest.Remembers.grows {position : Nat} {nullable : List (N × NodeId)}
    (h : f.Remembers position nullable) (hgrows : f.Grows f') :
    f'.Remembers position nullable :=
  fun n v hv => (h n v hv).grows hgrows

/-- A nonterminal more is remembered with its own node. -/
theorem Forest.Remembers.cons {position : Nat} {nullable : List (N × NodeId)} {n : N}
    {v : NodeId} (h : f.Remembers position nullable)
    (hv : f.Has v (.nonterminal n) ⟨position, position⟩) :
    f.Remembers position ((n, v) :: nullable) := by
  intro m w hw
  -- The nonterminal just added hides what was remembered for it before.
  by_cases hm : m = n
  · subst hm
    rw [List.lookup_cons_self, Option.some.injEq] at hw
    rwa [← hw]
  · simp only [List.lookup_cons, beq_false_of_ne hm] at hw
    exact h m w hw

variable [DecidableEq T]

theorem Column.mem_awaiting_iff {c : Column} {n : N} {item : Item} :
    item ∈ c.awaiting g n ↔ item ∈ c.items ∧ item.next? g = some (.nonterminal n) := by
  simp only [awaiting, List.mem_filter, decide_eq_true_eq]

omit [DecidableEq T] in
/-- An item that is not complete is handled as soon as the rules of a
    nonterminal that it expects are offered, and the item moved on with them if
    the nonterminal is remembered. -/
theorem Yield.Handles.of_next {s : Front T N} {item : Item} {y : Yield T N} {symbol : Symbol T N}
    (hnext : item.next? g = some symbol) (hkept : y.nullable = s.nullable)
    (hpredicted : ∀ n, symbol = .nonterminal n →
      ∀ rule ∈ g.rulesFor n, Item.fresh s.position rule ∈ y.offers)
    (hstepped : ∀ n v, symbol = .nonterminal n → s.nullable.lookup n = some v →
      y.Moves g s.position item v) : y.Handles g s item where
  predicted h := hpredicted _ (Option.some.inj (hnext.symm.trans h))
  stepped h := hstepped _ _ (Option.some.inj (hnext.symm.trans h))
  completed hr hend := by
    have hnone : item.next? g = none := (Grammar.symbolAt?_of_rule hr item.dot).trans hend
    rw [hnext] at hnone
    cases hnone
  kept hv := by
    rw [hkept]
    exact ⟨_, hv⟩

namespace Front

variable {s : Front T N} {item : Item} {r : Rule T N}

/-- A complete item: its head has a node, and the items that wait for the head
    where it began move on over that node. -/
theorem process_complete (hopen : f.Open g input s.mark s.position)
    (hnullable : f.Remembers s.position s.nullable)
    (hcolumns : ∀ j ≤ s.position, ∀ e ∈ (s.columnAt j).items, e.Found g input f j)
    (hfound : item.Found g input f s.position) (hr : g.rules[item.rule]? = some r)
    (hend : r.body[item.dot]? = none) :
    (s.process g f item).Found g input s f ∧ (s.process g f item).Handles g s item := by
  have hnone : item.next? g = none := (Grammar.symbolAt?_of_rule hr item.dot).trans hend
  -- First the head gets its node, then the waiting items move on over it.
  rcases complete_spec hopen hfound hr hend with
    ⟨v, f₁, hcomplete, hgrows₁, hopen₁, hhas, hempty⟩
  rcases moveAll_spec (.nonterminal r.head) ((s.columnAt item.origin).awaiting g r.head) f₁
      hopen₁ hhas
      (fun e he => (hcolumns _ hfound.matched.le e (Column.mem_awaiting_iff.mp he).1).grows hgrows₁)
      (fun e he => (Column.mem_awaiting_iff.mp he).2) with
    ⟨moved, f₂, hmove, hgrows₂, hopen₂, hmoved, hkeys, hrecords⟩
  have hgrows := hgrows₁.trans hgrows₂
  have hprocess : s.process g f item =
      ⟨moved, if item.origin = s.position then (r.head, v) :: s.nullable else s.nullable, f₂⟩ := by
    simp only [process, hr, hend, hcomplete, hmove]
    split <;> rfl
  rw [hprocess]
  constructor
  · refine ⟨hgrows, hopen₂, hmoved _, ?_⟩
    have hold := hnullable.grows hgrows
    simp only
    split
    · rename_i horigin
      rw [horigin] at hhas
      exact hold.cons (hhas.grows hgrows₂)
    · exact hold
  · refine ⟨fun h => ?_, fun h _ => ?_, fun hr' _ => ?_, fun {n w} hw => ?_⟩
    · rw [hnone] at h
      cases h
    · rw [hnone] at h
      cases h
    · rw [hr, Option.some.injEq] at hr'
      subst hr'
      refine ⟨v, hhas.grows hgrows₂, fun hnil => (hempty hnil).grows hgrows₂,
        fun e he hawaits => Yield.moves_of_keys hkeys (fun _ h => h) hrecords
          (Column.mem_awaiting_iff.mpr ⟨he, hawaits⟩), fun horigin => ⟨v, ?_⟩⟩
      rw [if_pos horigin, List.lookup_cons_self]
    · simp only
      split
      · by_cases hn : n = r.head
        · exact ⟨v, by rw [hn, List.lookup_cons_self]⟩
        · exact ⟨w, by rw [List.lookup_cons, beq_false_of_ne hn]; exact hw⟩
      · exact ⟨w, hw⟩

/-- An item that expects a terminal gives rise to nothing. -/
theorem process_terminal {t : T} (hopen : f.Open g input s.mark s.position)
    (hnullable : f.Remembers s.position s.nullable) (hr : g.rules[item.rule]? = some r)
    (hsymbol : r.body[item.dot]? = some (.terminal t)) :
    (s.process g f item).Found g input s f ∧ (s.process g f item).Handles g s item := by
  have hnext : item.next? g = some (.terminal t) :=
    (Grammar.symbolAt?_of_rule hr item.dot).trans hsymbol
  have hprocess : s.process g f item = ⟨[], s.nullable, f⟩ := by
    simp only [process, hr, hsymbol]
  rw [hprocess]
  exact ⟨⟨.refl f, hopen, fun h => absurd h List.not_mem_nil, hnullable⟩,
    .of_next hnext rfl (fun n h => by cases h) (fun n v h => by cases h)⟩

/-- An item that expects a nonterminal: the nonterminal's rules are offered,
    and if it is remembered, the item moves on as well. -/
theorem process_nonterminal {n : N} (hopen : f.Open g input s.mark s.position)
    (hnullable : f.Remembers s.position s.nullable) (hfound : item.Found g input f s.position)
    (hr : g.rules[item.rule]? = some r) (hsymbol : r.body[item.dot]? = some (.nonterminal n)) :
    (s.process g f item).Found g input s f ∧ (s.process g f item).Handles g s item := by
  have hnext : item.next? g = some (.nonterminal n) :=
    (Grammar.symbolAt?_of_rule hr item.dot).trans hsymbol
  -- The rules offered are those of a nonterminal that is asked for here.
  have hfresh : ∀ e ∈ (g.rulesFor n).map (Item.fresh s.position), ∀ f' : Forest T N,
      e.Found g input f' s.position := by
    intro e he f'
    rcases List.mem_map.mp he with ⟨rule, hrule, rfl⟩
    exact found_fresh (hfound.matched.reaches hnext) hrule f'
  cases hlookup : s.nullable.lookup n with
  | none =>
      have hprocess : s.process g f item =
          ⟨(g.rulesFor n).map (Item.fresh s.position), s.nullable, f⟩ := by
        simp only [process, hr, hsymbol, hlookup]
      rw [hprocess]
      refine ⟨⟨.refl f, hopen, fun h => hfresh _ h f, hnullable⟩,
        .of_next hnext rfl (fun m hm rule hrule => ?_) (fun m v hm hv => ?_)⟩
      · cases hm
        exact List.mem_map_of_mem hrule
      · cases hm
        rw [hlookup] at hv
        cases hv
  | some v =>
      rcases moveAll_spec (.nonterminal n) [item] f hopen (hnullable n v hlookup)
          (fun e he => List.mem_singleton.mp he ▸ hfound)
          (fun e he => by rw [List.mem_singleton.mp he, hnext]) with
        ⟨moved, f₁, hmove, hgrows, hopen₁, hmoved, hkeys, hrecords⟩
      have hprocess : s.process g f item =
          ⟨(g.rulesFor n).map (Item.fresh s.position) ++ moved, s.nullable, f₁⟩ := by
        simp only [process, hr, hsymbol, hlookup, hmove]
      rw [hprocess]
      refine ⟨⟨hgrows, hopen₁, fun h => ?_, hnullable.grows hgrows⟩,
        .of_next hnext rfl (fun m hm rule hrule => ?_) (fun m w hm hw => ?_)⟩
      · rcases List.mem_append.mp h with h | h
        · exact hfresh _ h f₁
        · exact hmoved _ h
      · cases hm
        exact List.mem_append_left _ (List.mem_map_of_mem hrule)
      · cases hm
        rw [hlookup] at hw
        cases hw
        exact Yield.moves_of_keys hkeys (fun _ h => List.mem_append_right _ h) hrecords
          (List.mem_singleton_self item)

/-- Processing a found item handles it, and what it gives rise to is true. An
    item waits only in a column in which items are found. -/
theorem process_spec (hopen : f.Open g input s.mark s.position)
    (hnullable : f.Remembers s.position s.nullable)
    (hcolumns : ∀ j ≤ s.position, ∀ e ∈ (s.columnAt j).items, e.Found g input f j)
    (hfound : item.Found g input f s.position) :
    (s.process g f item).Found g input s f ∧ (s.process g f item).Handles g s item := by
  rcases hfound.matched with ⟨r, hr, _⟩
  cases hsymbol : r.body[item.dot]? with
  | none => exact process_complete hopen hnullable hcolumns hfound hr hsymbol
  | some symbol =>
      cases symbol with
      | terminal t => exact process_terminal hopen hnullable hr hsymbol
      | nonterminal n => exact process_nonterminal hopen hnullable hfound hr hsymbol

end Front

end EarleyForest
