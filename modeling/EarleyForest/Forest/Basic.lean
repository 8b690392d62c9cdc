/-!
# Packed Forests

A shared packed parse forest holds all derivations of an input at once. Each
node stands for a span of the input derived from a terminal, from a
nonterminal, or from the first symbols of a rule's body, and lists every way
to derive it as a family of at most two children. A node with two or more
families is packed: the derivations above it share the node and differ only
in the family taken.

Nodes are numbered in the order in which they were made, and the families of
a node are kept in the order in which they were found.

## Main definitions

* `Span`: A stretch of the input.
* `Label`: What a node derives its span from.
* `Family`: One way to derive a node's span.
* `Node`: A label, a span and the families found so far.
* `Forest`: Nodes by number.
* `Forest.pack`: Records a family under the one node of a label and a span.

## Theorems

* `node?_grow`, `node?_addFamily`: The nodes of a forest that has grown.
* `node?_of_find?`, `find?_eq_none_iff`: What a search finds and misses.
* `length_families_le`: A bound on the families of one node.
-/

namespace EarleyForest

variable {T N : Type}

/-- The positions from `start` up to and without `stop`. -/
structure Span where
  start : Nat
  stop : Nat
deriving DecidableEq

/-- The number of a node. -/
abbrev NodeId := Nat

/-- What a node derives its span from. -/
inductive Label (T N : Type) where
  | terminal (t : T)
  | nonterminal (n : N)
  /-- The first `dot` symbols of the body of rule `rule`, and not all of
      them. -/
  | intermediate (rule dot : Nat)
deriving DecidableEq

/-- The label stands for a part of a rule's body. -/
def Label.isIntermediate : Label T N → Bool
  | intermediate _ _ => true
  | _ => false

/-- One way to derive a node's span. -/
inductive Family where
  /-- The empty span, derived by a rule with an empty body. -/
  | epsilon
  | unary (child : NodeId)
  | binary (left right : NodeId)
deriving DecidableEq

namespace Family

/-- The children of a family from left to right. -/
def children : Family → List NodeId
  | epsilon => []
  | unary child => [child]
  | binary left right => [left, right]

/-- The child in place `slot`, counted from the left. -/
def child? (f : Family) (slot : Nat) : Option NodeId := f.children[slot]?

/-- The number of children. -/
def arity (f : Family) : Nat := f.children.length

end Family

/-- A node: what it derives, where, and in which ways. -/
structure Node (T N : Type) where
  label : Label T N
  span : Span
  families : List Family
deriving DecidableEq

namespace Node

/-- There is more than one way to derive the node. -/
def isPacked (node : Node T N) : Bool := decide (1 < node.families.length)

/-- The children of all families, in order. -/
def children (node : Node T N) : List NodeId := node.families.flatMap Family.children

/-- The node with one more family, unless it has that family already. -/
def addFamily (node : Node T N) (family : Family) : Node T N :=
  if family ∈ node.families then node
  else { node with families := node.families ++ [family] }

end Node

/-- Nodes by number. -/
structure Forest (T N : Type) where
  nodes : Array (Node T N)
deriving DecidableEq

namespace Forest

/-- The forest without nodes. -/
def empty : Forest T N := ⟨#[]⟩

/-- The number of nodes. -/
def size (f : Forest T N) : Nat := f.nodes.size

/-- The node with a number. -/
def node? (f : Forest T N) (id : NodeId) : Option (Node T N) := f.nodes[id]?

/-- The number of families of all nodes. -/
def familyCount (f : Forest T N) : Nat :=
  (f.nodes.toList.map Node.families).flatten.length

/-- A forest with one more node, which has the next number and no family
    yet. -/
def grow (f : Forest T N) (label : Label T N) (span : Span) : Forest T N :=
  ⟨f.nodes.push ⟨label, span, []⟩⟩

/-- A forest in which a node has one more family. -/
def addFamily (f : Forest T N) (id : NodeId) (family : Family) : Forest T N :=
  ⟨f.nodes.modify id fun node => node.addFamily family⟩

/-- A node has this label and this span. -/
def isAt [DecidableEq T] [DecidableEq N] (f : Forest T N) (label : Label T N) (span : Span)
    (id : NodeId) : Bool :=
  (f.node? id).any fun node => decide (node.span = span) && decide (node.label = label)

/-- The first node with this label and this span among those numbered `mark`
    and above. -/
def find? [DecidableEq T] [DecidableEq N] (f : Forest T N) (mark : Nat) (label : Label T N)
    (span : Span) : Option NodeId :=
  (List.range' mark (f.size - mark)).find? (f.isAt label span)

/-- Records a family under the node with this label and this span, looked for
    among those numbered `mark` and above and made if it is not there. Gives
    the node's number and the forest after that. -/
def pack [DecidableEq T] [DecidableEq N] (f : Forest T N) (mark : Nat) (label : Label T N)
    (span : Span) (family : Family) : NodeId × Forest T N :=
  match f.find? mark label span with
  | some id => (id, f.addFamily id family)
  | none => (f.size, (f.grow label span).addFamily f.size family)

theorem size_grow (f : Forest T N) (label : Label T N) (span : Span) :
    (f.grow label span).size = f.size + 1 := Array.size_push _

theorem size_addFamily (f : Forest T N) (id : NodeId) (family : Family) :
    (f.addFamily id family).size = f.size := Array.size_modify

/-- Growing a forest adds a node behind the others. -/
theorem node?_grow (f : Forest T N) (label : Label T N) (span : Span) (id : NodeId) :
    (f.grow label span).node? id = if id = f.size then some ⟨label, span, []⟩ else f.node? id :=
  Array.getElem?_push

/-- Recording a family changes the one node. -/
theorem node?_addFamily (f : Forest T N) (changed : NodeId) (family : Family) (id : NodeId) :
    (f.addFamily changed family).node? id =
      if changed = id then (f.node? id).map fun node => node.addFamily family else f.node? id :=
  Array.getElem?_modify

section

variable [DecidableEq T] [DecidableEq N]

theorem isAt_eq_true_iff {f : Forest T N} {label : Label T N} {span : Span} {id : NodeId} :
    f.isAt label span id = true ↔ ∃ families, f.node? id = some ⟨label, span, families⟩ := by
  simp only [isAt, Option.any_eq_true, Bool.and_eq_true, decide_eq_true_eq]
  constructor
  · rintro ⟨node, hnode, hspan, hlabel⟩
    exact ⟨node.families, by rw [hnode, ← hspan, ← hlabel]⟩
  · rintro ⟨families, hnode⟩
    exact ⟨_, hnode, rfl, rfl⟩

/-- A node found has the label and the span looked for. -/
theorem node?_of_find? {f : Forest T N} {mark : Nat} {label : Label T N} {span : Span}
    {id : NodeId} (h : f.find? mark label span = some id) :
    ∃ families, f.node? id = some ⟨label, span, families⟩ :=
  isAt_eq_true_iff.mp (List.find?_some h)

/-- No node with this label and this span is missed. -/
theorem find?_eq_none_iff {f : Forest T N} {mark : Nat} {label : Label T N} {span : Span} :
    f.find? mark label span = none ↔
      ∀ id families, mark ≤ id → f.node? id ≠ some ⟨label, span, families⟩ := by
  simp only [find?, List.find?_eq_none, List.mem_range'_1, and_imp]
  constructor
  · -- A node that exists has a number below the size, so it was looked at.
    intro h id families hmark hnode
    have hsize := (Array.getElem?_eq_some_iff.mp hnode).1
    simp only [size] at h
    exact h id hmark (by omega) (isAt_eq_true_iff.mpr ⟨families, hnode⟩)
  · intro h id hmark _ hat
    rcases isAt_eq_true_iff.mp hat with ⟨families, hnode⟩
    exact h id families hmark hnode

end

theorem length_families_le {f : Forest T N} {id : NodeId} {node : Node T N}
    (h : f.node? id = some node) : node.families.length ≤ f.familyCount :=
  (List.sublist_flatten_of_mem
    (List.mem_map_of_mem (Array.mem_toList_iff.mpr (Array.mem_of_getElem? h)))).length_le

end Forest

end EarleyForest
