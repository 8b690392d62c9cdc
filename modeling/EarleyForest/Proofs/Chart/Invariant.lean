import EarleyForest.Chart.Stage
import EarleyForest.Proofs.Chart.Offer
import EarleyForest.Proofs.Chart.Processing

/-!
# What Holds During a Parse

Three things hold at every stage of a parse.

Everything is true: the items of each column are found there, no column has
two of them under one key, and the forest is sound.

The open column is in order: its items are those processed, those on the
agenda and those that wait for the shift, in the order in which they came.

The work is done: what the items handled so far give rise to is there. All
items of the closed columns are handled, and those of the open one that have
been processed. The delicate case is an item that expects a nonterminal which
matches the empty span at the current position. The nonterminal's complete
item and the item that waits for it are in the same column, and either may be
processed first. If the waiting item is, the complete one finds it in the
column; if the complete one is, its node is remembered until the waiting item
comes. Both ways lead to the same node, because there is only one.

## Main definitions

* `Stage.Sound`: Everything is true.
* `Stage.Ordered`: The open column is in order.
* `Stage.Worked`: The work of the items handled is done.
* `Stage.Extends`: One stage comes after another.

## Theorems

* `Takes.extends`, `Advances.extends`: What is done stays done.
* `handled_of_agenda_nil`: Which items are handled in the end.
-/

namespace EarleyForest

variable {T N : Type}

namespace Front

theorem columnAt_position (s : Front T N) : s.columnAt s.position = s.column := by
  rw [columnAt, position, Array.getElem?_eq_none (Nat.le_refl _), Option.getD_none]

/-- The columns before the open one are told by the closed columns alone. -/
theorem columnAt_congr (s s' : Front T N) (h : s'.closed = s.closed) {j : Nat}
    (hj : j < s.position) : s'.columnAt j = s.columnAt j := by
  have hlt : j < s.closed.size := hj
  rw [columnAt, columnAt, h, Array.getElem?_eq_getElem hlt, Option.getD_some, Option.getD_some]

/-- Taking items in does nothing to the closed columns. -/
theorem columnAt_taking_of_lt (g : Grammar T N) (s : Front T N) (added : List Item) {j : Nat}
    (hj : j < s.position) : (s.taking g added).columnAt j = s.columnAt j :=
  columnAt_congr s (s.taking g added) rfl hj

theorem columnAt_taking_position (g : Grammar T N) (s : Front T N) (added : List Item) :
    (s.taking g added).columnAt s.position = ⟨(s.columnAt s.position).items ++ added⟩ := by
  rw [columnAt_position]
  exact columnAt_position (s.taking g added)

end Front

namespace Stage

/-- Everything at a stage is true. -/
structure Sound [DecidableEq N] (g : Grammar T N) (input : List T) (s : Stage T N) : Prop where
  position_le : s.front.position ≤ input.length
  lookahead : s.front.lookahead = input[s.front.position]?
  forest : s.forest.Open g input s.front.mark s.front.position
  nullable : s.forest.Remembers s.front.position s.front.nullable
  found {j : Nat} {item : Item} : j ≤ s.front.position → item ∈ (s.front.columnAt j).items →
    item.Found g input s.forest j
  viable {j : Nat} {item : Item} : j ≤ s.front.position → item ∈ (s.front.columnAt j).items →
    g.Viable input[j]? item.rule item.dot
  distinct {j : Nat} : j ≤ s.front.position → (s.front.columnAt j).Distinct

/-- The items of the open column that do not wait for the shift are those
    processed, followed by the agenda. -/
structure Ordered (g : Grammar T N) (done : List Item) (s : Stage T N) : Prop where
  agenda : done ++ s.front.agenda =
    s.front.column.items.filter fun item => !item.expectsTerminal g
  shifting : s.front.shifting = s.front.column.items.filter fun item => item.expectsTerminal g

/-- The item is in a column and has been processed, if the column is the open
    one. -/
def Handled (done : List Item) (s : Stage T N) (j : Nat) (item : Item) : Prop :=
  item ∈ (s.front.columnAt j).items ∧ (j = s.front.position → item ∈ done)

/-- The column at a position has an item with this key, unless that would
    expect a terminal that does not come next. -/
def Takes (g : Grammar T N) (input : List T) (s : Stage T N) (j rule dot origin : Nat) : Prop :=
  g.Viable input[j]? rule dot → (s.front.columnAt j).contains rule dot origin = true

/-- An item has moved on over a node that ends at a position. -/
def Advances (g : Grammar T N) (input : List T) (s : Stage T N) (j : Nat) (item : Item)
    (right : NodeId) : Prop :=
  s.Takes g input j item.rule (item.dot + 1) item.origin ∧ s.forest.Records g item right j

/-- What the items handled give rise to is there. -/
structure Worked [DecidableEq N] (g : Grammar T N) (input : List T) (done : List Item)
    (s : Stage T N) : Prop where
  started {rule : Nat} : rule ∈ g.rulesFor g.start → s.Takes g input 0 rule 0 0
  predicted {j : Nat} {item : Item} {n : N} : j ≤ s.front.position → s.Handled done j item →
    item.next? g = some (.nonterminal n) →
    ∀ rule ∈ g.rulesFor n, s.Takes g input j rule 0 j
  completed {j : Nat} {item : Item} {r : Rule T N} : j ≤ s.front.position →
    s.Handled done j item → g.rules[item.rule]? = some r → r.body[item.dot]? = none →
    ∃ v, s.forest.Has v (.nonterminal r.head) ⟨item.origin, j⟩ ∧
      (r.body = [] → s.forest.Lists v (.nonterminal r.head) ⟨item.origin, j⟩ .epsilon) ∧
      ∀ e, s.Handled done item.origin e → e.next? g = some (.nonterminal r.head) →
        s.Advances g input j e v
  shifted {j : Nat} {item : Item} {t : T} : j < s.front.position →
    item ∈ (s.front.columnAt j).items → item.next? g = some (.terminal t) →
    ∃ v, s.forest.Has v (.terminal t) ⟨j, j + 1⟩ ∧ s.Advances g input (j + 1) item v
  leaves {j : Nat} {t : T} : j < s.front.position → input[j]? = some t →
    ∃ v, s.forest.Has v (.terminal t) ⟨j, j + 1⟩
  remembered {item : Item} {r : Rule T N} : item ∈ done → g.rules[item.rule]? = some r →
    r.body[item.dot]? = none → item.origin = s.front.position →
    ∃ v, s.front.nullable.lookup r.head = some v

/-- One stage comes after another: no column up to the first one's position
    has lost anything, and the forest has grown. -/
structure Extends (s s' : Stage T N) : Prop where
  columns {j : Nat} : j ≤ s.front.position →
    ∃ added, (s'.front.columnAt j).items = (s.front.columnAt j).items ++ added
  grows : s.forest.Grows s'.forest

variable {g : Grammar T N} {input : List T} {s s' : Stage T N} {done : List Item}

theorem Takes.extends {j rule dot origin : Nat} (h : s.Takes g input j rule dot origin)
    (hs : s.Extends s') (hj : j ≤ s.front.position) : s'.Takes g input j rule dot origin := by
  intro hviable
  rcases hs.columns hj with ⟨added, hadded⟩
  have hitems : s'.front.columnAt j = ⟨(s.front.columnAt j).items ++ added⟩ := by
    rw [← hadded]
  rw [hitems]
  exact Column.contains_append (h hviable) added

theorem Advances.extends {j : Nat} {item : Item} {right : NodeId}
    (h : s.Advances g input j item right) (hs : s.Extends s') (hj : j ≤ s.front.position) :
    s'.Advances g input j item right :=
  ⟨h.1.extends hs hj, h.2.grows hs.grows⟩

/-- Once the agenda is empty, an item that does not wait for the shift is
    handled. -/
theorem handled_of_agenda_nil (ho : s.Ordered g done) (hagenda : s.front.agenda = []) {j : Nat}
    {item : Item} (hitem : item ∈ (s.front.columnAt j).items)
    (hnext : item.expectsTerminal g = false) : s.Handled done j item := by
  refine ⟨hitem, fun hj => ?_⟩
  -- With nothing left on the agenda, the items processed are all that do not
  -- wait.
  have hdone := ho.agenda
  rw [hagenda, List.append_nil] at hdone
  rw [hj, Front.columnAt_position] at hitem
  rw [hdone, List.mem_filter, hnext]
  exact ⟨hitem, rfl⟩

/-- The items processed are in the open column. -/
theorem Ordered.mem_column (ho : s.Ordered g done) {item : Item}
    (h : item ∈ done ++ s.front.agenda) : item ∈ s.front.column.items := by
  rw [ho.agenda] at h
  exact (List.mem_filter.mp h).1

end Stage

end EarleyForest
