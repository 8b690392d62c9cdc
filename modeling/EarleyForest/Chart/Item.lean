import EarleyForest.Forest.Basic
import EarleyForest.Grammar.Basic

/-!
# Items and Columns

An item says that the first symbols of a rule's body, up to a dot, have been
matched from some position of the input on. A column of the chart collects
the items that have been matched up to one position, in the order in which
they were found.

Within one column an item is known by its rule, its dot and its origin: a
column takes no second item that agrees with one of its own in these three,
whatever node it comes with.

## Main definitions

* `Item`: A rule, a dot, an origin and the node of what has been matched.
* `Item.key`: What an item is known by in its column.
* `Column`: Items in the order of their discovery.
* `Column.get?`, `Column.contains`, `Column.add`: Access by key.

## Theorems

* `contains_eq_true_iff`: A column contains the items with one of its keys.
-/

namespace EarleyForest

variable {T N : Type}

/-- The first `dot` symbols of rule `rule` have been matched from position
    `origin` on. The node derives that match; as long as the dot is zero
    there is none. -/
structure Item where
  rule : Nat
  dot : Nat
  origin : Nat
  node : Option NodeId
deriving DecidableEq

namespace Item

/-- What an item is known by in its column. -/
def key (item : Item) : Nat × Nat × Nat := (item.rule, item.dot, item.origin)

/-- The item of a rule of which nothing has been matched yet. -/
def fresh (origin rule : Nat) : Item := ⟨rule, 0, origin, none⟩

/-- The item with its dot behind one more symbol. -/
def moved (item : Item) (node : NodeId) : Item :=
  { item with dot := item.dot + 1, node := some node }

/-- The symbol behind the dot. -/
def next? (g : Grammar T N) (item : Item) : Option (Symbol T N) :=
  g.symbolAt? item.rule item.dot

end Item

/-- Items in the order of their discovery. -/
structure Column where
  items : List Item
deriving DecidableEq

namespace Column

/-- The column without items. -/
def empty : Column := ⟨[]⟩

/-- The number of items. -/
def size (c : Column) : Nat := c.items.length

/-- The item with a rule, a dot and an origin. -/
def get? (c : Column) (rule dot origin : Nat) : Option Item :=
  c.items.find? fun item => item.key = (rule, dot, origin)

/-- The column has an item with this rule, dot and origin. -/
def contains (c : Column) (rule dot origin : Nat) : Bool := (c.get? rule dot origin).isSome

/-- The column with one more item at its end. -/
def add (c : Column) (item : Item) : Column := ⟨c.items ++ [item]⟩

/-- The items whose next symbol is a given nonterminal. -/
def awaiting [DecidableEq T] [DecidableEq N] (g : Grammar T N) (c : Column) (n : N) :
    List Item :=
  c.items.filter fun item => item.next? g = some (.nonterminal n)

theorem contains_eq_true_iff {c : Column} {rule dot origin : Nat} :
    c.contains rule dot origin = true ↔ ∃ item ∈ c.items, item.key = (rule, dot, origin) := by
  simp only [contains, get?, List.find?_isSome, decide_eq_true_eq]

end Column

end EarleyForest
