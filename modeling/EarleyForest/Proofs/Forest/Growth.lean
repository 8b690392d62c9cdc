import EarleyForest.Forest.Basic

/-!
# Growing Forests

A parse only ever adds to its forest. A node keeps its number, its label and
its span for good, and the families that it has got stay in front of those
that it gets later.

Every node but a leaf is made, and every family is recorded, by packing.
Packing takes the node of a label and a span if there is one behind the mark,
makes it otherwise, and leaves it with the family; `node?_pack` says all of
this about every node at once.

## Main definitions

* `Forest.Has`: A node has a label and a span.
* `Forest.Lists`: A node has a label and a span and lists a family.
* `Forest.Grows`: One forest has become another.

## Theorems

* `Grows.trans`, `Has.grows`, `Lists.grows`: What lasts.
* `grows_of_changed`, `grows_grow`: How a forest grows.
* `node?_pack`: Every node of a forest in which a family has been packed.
-/

namespace EarleyForest

variable {T N : Type}

namespace Node

/-- A family recorded comes behind the others, if it is a new one. -/
theorem addFamily_eq (label : Label T N) (span : Span) (families : List Family)
    (family : Family) : ∃ more, Node.addFamily ⟨label, span, families⟩ family =
      ⟨label, span, families ++ more⟩ ∧ family ∈ families ++ more ∧
      (∀ other ∈ more, other = family) ∧ (families.Nodup → (families ++ more).Nodup) := by
  by_cases hmem : family ∈ families
  · refine ⟨[], ?_, List.mem_append_left _ hmem, fun _ h => absurd h List.not_mem_nil, ?_⟩
    · rw [addFamily, if_pos hmem, List.append_nil]
    · rw [List.append_nil]
      exact id
  · refine ⟨[family], by rw [addFamily, if_neg hmem],
      List.mem_append_right _ (List.mem_singleton_self _), fun _ => List.mem_singleton.mp,
      fun hnodup => List.nodup_append.mpr ⟨hnodup, List.pairwise_singleton _ _, ?_⟩⟩
    rintro other hother _ hnew rfl
    exact hmem (List.mem_singleton.mp hnew ▸ hother)

end Node

namespace Forest

/-- A node has this label and this span. -/
def Has (f : Forest T N) (id : NodeId) (label : Label T N) (span : Span) : Prop :=
  ∃ families, f.node? id = some ⟨label, span, families⟩

/-- A node has this label and this span and lists this family. -/
def Lists (f : Forest T N) (id : NodeId) (label : Label T N) (span : Span)
    (family : Family) : Prop :=
  ∃ families, f.node? id = some ⟨label, span, families⟩ ∧ family ∈ families

/-- Each node of the first forest is a node of the second with the same label
    and span, and its families are the first ones there. -/
def Grows (before after : Forest T N) : Prop :=
  ∀ id label span families, before.node? id = some ⟨label, span, families⟩ →
    ∃ more, after.node? id = some ⟨label, span, families ++ more⟩

variable {f f' f'' : Forest T N} {id : NodeId} {label : Label T N} {span : Span}
  {family : Family}

theorem has_of_node? {node : Node T N} (h : f.node? id = some node) :
    f.Has id node.label node.span := ⟨node.families, h⟩

/-- A node lists its families. -/
theorem lists_iff_mem {families : List Family}
    (hnode : f.node? id = some ⟨label, span, families⟩) :
    f.Lists id label span family ↔ family ∈ families := by
  rw [Lists, hnode]
  simp only [Option.some.injEq, Node.mk.injEq, true_and, exists_eq_left']

theorem Lists.has (h : f.Lists id label span family) : f.Has id label span := by
  rcases h with ⟨families, hnode, _⟩
  exact ⟨families, hnode⟩

theorem Has.node?_ne_none (h : f.Has id label span) : f.node? id ≠ none := by
  rcases h with ⟨families, hnode⟩
  rw [hnode]
  exact Option.some_ne_none _

/-- A node has one label and one span. -/
theorem Has.eq {label' : Label T N} {span' : Span} (h : f.Has id label span)
    (h' : f.Has id label' span') : label = label' ∧ span = span' := by
  rcases h with ⟨families, hnode⟩
  rcases h' with ⟨families', hnode'⟩
  rw [hnode, Option.some.injEq, Node.mk.injEq] at hnode'
  exact ⟨hnode'.1, hnode'.2.1⟩

theorem Has.lt_size (h : f.Has id label span) : id < f.size := by
  rcases h with ⟨families, hnode⟩
  exact (Array.getElem?_eq_some_iff.mp hnode).1

theorem Grows.refl (f : Forest T N) : f.Grows f :=
  fun _ _ _ families h => ⟨[], by rw [h, List.append_nil]⟩

theorem Grows.trans (h : f.Grows f') (h' : f'.Grows f'') : f.Grows f'' := by
  intro id label span families hnode
  rcases h id label span families hnode with ⟨more, hmore⟩
  rcases h' id label span _ hmore with ⟨later, hlater⟩
  exact ⟨more ++ later, by rw [hlater, List.append_assoc]⟩

theorem Grows.size_le (h : f.Grows f') : f.size ≤ f'.size := by
  -- A forest that is smaller lacks the node numbered with its size.
  refine Nat.le_of_not_lt fun hlt => ?_
  rcases h f'.size _ _ _ (Array.getElem?_eq_getElem hlt) with ⟨more, hmore⟩
  exact Nat.lt_irrefl _ (Has.lt_size ⟨_, hmore⟩)

theorem Has.grows (h : f.Has id label span) (hgrows : f.Grows f') : f'.Has id label span := by
  rcases h with ⟨families, hnode⟩
  rcases hgrows id label span families hnode with ⟨more, hmore⟩
  exact ⟨_, hmore⟩

theorem Lists.grows (h : f.Lists id label span family) (hgrows : f.Grows f') :
    f'.Lists id label span family := by
  rcases h with ⟨families, hnode, hfamily⟩
  rcases hgrows id label span families hnode with ⟨more, hmore⟩
  exact ⟨_, hmore, List.mem_append_left _ hfamily⟩

/-- A forest in which one node has been made or has got more families has
    grown. -/
theorem grows_of_changed {changed : NodeId} {families more : List Family}
    (hnode : ∀ other, f'.node? other =
      if other = changed then some ⟨label, span, families ++ more⟩ else f.node? other)
    (hold : ∀ node, f.node? changed = some node → node = ⟨label, span, families⟩) :
    f.Grows f' := by
  intro other label' span' families' hother
  rw [hnode]
  by_cases hid : other = changed
  · rw [hid] at hother
    have heq := hold _ hother
    rw [Node.mk.injEq] at heq
    rcases heq with ⟨rfl, rfl, rfl⟩
    exact ⟨more, if_pos hid⟩
  · exact ⟨[], by rw [if_neg hid, hother, List.append_nil]⟩

theorem has_grow (f : Forest T N) (label : Label T N) (span : Span) :
    (f.grow label span).Has f.size label span :=
  ⟨[], by rw [node?_grow, if_pos rfl]⟩

/-- A new node leaves the others as they are. -/
theorem grows_grow (f : Forest T N) (label : Label T N) (span : Span) :
    f.Grows (f.grow label span) := by
  intro id label' span' families hnode
  have hlt := Has.lt_size ⟨families, hnode⟩
  refine ⟨[], ?_⟩
  rw [node?_grow, if_neg (Nat.ne_of_lt hlt), hnode, List.append_nil]

section

variable [DecidableEq T] [DecidableEq N]

/-- Packing leaves all nodes but one as they are. That one has the label and
    the span looked for; it had them before, or it is the next number and no
    node behind the mark had them. -/
theorem node?_pack (f : Forest T N) (mark : Nat) (label : Label T N) (span : Span)
    (family : Family) : ∃ id families f',
      f.pack mark label span family = (id, f') ∧
      (f.node? id = some ⟨label, span, families⟩ ∧ mark ≤ id ∨
        id = f.size ∧ families = [] ∧ ∀ other, mark ≤ other → ¬ f.Has other label span) ∧
      ∀ other, f'.node? other =
        if other = id then some (Node.addFamily ⟨label, span, families⟩ family)
        else f.node? other := by
  cases hfind : f.find? mark label span with
  | some id =>
      rcases node?_of_find? hfind with ⟨families, hnode⟩
      have hmark : mark ≤ id := (List.mem_range'_1.mp (List.mem_of_find?_eq_some hfind)).1
      refine ⟨id, families, f.addFamily id family, by simp only [pack, hfind],
        Or.inl ⟨hnode, hmark⟩, fun other => ?_⟩
      rw [node?_addFamily]
      by_cases hother : other = id
      · rw [if_pos hother.symm, if_pos hother, hother, hnode, Option.map_some]
      · rw [if_neg fun h => hother h.symm, if_neg hother]
  | none =>
      rw [find?_eq_none_iff] at hfind
      have hnone : ∀ other, mark ≤ other → ¬ f.Has other label span := by
        rintro other hmark ⟨families, hnode⟩
        exact hfind other families hmark hnode
      refine ⟨f.size, [], (f.grow label span).addFamily f.size family, ?_,
        Or.inr ⟨rfl, rfl, hnone⟩, fun other => ?_⟩
      · simp only [pack, find?_eq_none_iff.mpr hfind]
      · rw [node?_addFamily, node?_grow]
        by_cases hother : other = f.size
        · rw [if_pos hother.symm, if_pos hother, if_pos hother, Option.map_some]
        · rw [if_neg fun h => hother h.symm, if_neg hother, if_neg hother]

end

end Forest

end EarleyForest
