import EarleyForest.Proofs.Forest.Growth
import EarleyForest.Proofs.Forest.Label

/-!
# Sound Forests

A forest is sound for a grammar and an input if everything in it is true:
each node's label holds of its span, each of its families is a way to derive
that, and no label and span belong to two nodes.

A parse looks for a node only among those of the open column, which are the
ones behind the mark. Nothing is missed by this because a node's column can be
told from its span: the nodes behind the mark are those whose span ends at the
current position.

## Main definitions

* `Forest.Way`: A family derives a label over a span.
* `Forest.Sound`: Everything in a forest is true.
* `Forest.Marked`: The nodes of the open column are those behind the mark.
* `Forest.Open`: A sound forest in the course of a parse.

## Theorems

* `Sound.child`: Where the spans of children lie.
* `open_empty`, `open_grow_leaf`, `open_pack`: A forest stays sound.
-/

namespace EarleyForest

namespace Forest

variable {T N : Type}

/-- A family derives a label over a span: the empty family for an empty rule,
    one child for a rule of one symbol, and two children where a match of at
    least one symbol has moved on over one symbol more. -/
inductive Way (g : Grammar T N) (f : Forest T N) : Label T N → Span → Family → Prop where
  | epsilon {n : N} {i : Nat} (rule : Rule.epsilon n ∈ g.rules) :
      Way g f (.nonterminal n) ⟨i, i⟩ .epsilon
  | unary {n : N} {s : Symbol T N} {span : Span} {child : NodeId} (rule : ⟨n, [s]⟩ ∈ g.rules)
      (below : f.Has child s.label span) : Way g f (.nonterminal n) span (.unary child)
  | binary {rule dot i k j : Nat} {before after : Label T N} {s : Symbol T N}
      {left right : NodeId} (hbefore : g.labelAt? rule dot = some before)
      (hs : g.symbolAt? rule dot = some s) (hafter : g.labelAt? rule (dot + 1) = some after)
      (hleft : f.Has left before ⟨i, k⟩) (hright : f.Has right s.label ⟨k, j⟩) :
      Way g f after ⟨i, j⟩ (.binary left right)

/-- Everything in a forest is true, and nothing is there twice. -/
structure Sound (g : Grammar T N) (input : List T) (f : Forest T N) : Prop where
  holds {id : NodeId} {label : Label T N} {span : Span} :
    f.Has id label span → label.Holds g input span
  unique {id id' : NodeId} {label : Label T N} {span : Span} :
    f.Has id label span → f.Has id' label span → id = id'
  way {id : NodeId} {label : Label T N} {span : Span} {family : Family} :
    f.Lists id label span family → f.Way g label span family
  nodup {id : NodeId} {node : Node T N} : f.node? id = some node → node.families.Nodup
  /-- The nodes without families are the leaves. -/
  bare {id : NodeId} {node : Node T N} : f.node? id = some node →
    (node.families = [] ↔ ∃ t, node.label = .terminal t)

/-- The nodes behind the mark are those whose span ends at a position, and no
    span ends behind it. -/
structure Marked (f : Forest T N) (mark position : Nat) : Prop where
  mark_le : mark ≤ f.size
  stop_le {id : NodeId} {label : Label T N} {span : Span} :
    f.Has id label span → span.stop ≤ position
  behind {id : NodeId} {label : Label T N} {span : Span} :
    f.Has id label span → (mark ≤ id ↔ span.stop = position)

/-- A sound forest whose nodes of the open column, the one at a position, are
    those behind the mark. -/
structure Open (g : Grammar T N) (input : List T) (mark position : Nat) (f : Forest T N) :
    Prop where
  sound : f.Sound g input
  marked : f.Marked mark position

variable {g : Grammar T N} {input : List T} {f f' : Forest T N} {label : Label T N} {span : Span}
  {family : Family}

theorem Way.grows (h : f.Way g label span family) (hgrows : f.Grows f') :
    f'.Way g label span family := by
  cases h with
  | epsilon rule => exact .epsilon rule
  | unary rule below => exact .unary rule (below.grows hgrows)
  | binary hbefore hs hafter hleft hright =>
      exact .binary hbefore hs hafter (hleft.grows hgrows) (hright.grows hgrows)

/-- The children of a sound family have nodes whose spans lie within the span
    that the family derives. -/
theorem Sound.child (h : f.Sound g input) (hway : f.Way g label span family) {child : NodeId}
    (hchild : child ∈ family.children) : ∃ label' span', f.Has child label' span' ∧
      span.start ≤ span'.start ∧ span'.stop ≤ span.stop := by
  cases hway with
  | epsilon rule => exact absurd hchild List.not_mem_nil
  | unary rule below =>
      rw [List.mem_singleton.mp hchild]
      exact ⟨_, _, below, Nat.le_refl _, Nat.le_refl _⟩
  | binary hbefore hs hafter hleft hright =>
      have hle := (h.holds hleft).derives.le
      have hle' := (h.holds hright).derives.le
      rcases List.mem_cons.mp hchild with rfl | hchild
      · exact ⟨_, _, hleft, Nat.le_refl _, hle'⟩
      · rw [List.mem_singleton.mp hchild]
        exact ⟨_, _, hright, hle, Nat.le_refl _⟩

/-- The position of a leaf lies in its span. -/
theorem Sound.start_lt (h : f.Sound g input) {id : NodeId} {t : T}
    (hhas : f.Has id (.terminal t) span) {length : Nat} (hstop : span.stop ≤ length) :
    span.start < length := by
  have hleaf : span.stop = span.start + 1 := (h.holds hhas).2
  rwa [hleaf] at hstop

/-- Only leaves have no family. -/
theorem Sound.families_ne_nil (h : f.Sound g input) {id : NodeId} {node : Node T N}
    (hnode : f.node? id = some node) (hlabel : ∀ t, node.label ≠ .terminal t) :
    node.families ≠ [] := by
  intro hnil
  rcases (h.bare hnode).mp hnil with ⟨t, ht⟩
  exact hlabel t ht

theorem node?_empty (id : NodeId) : (empty : Forest T N).node? id = none :=
  Array.getElem?_empty

theorem not_has_empty (id : NodeId) (label : Label T N) (span : Span) :
    ¬ (empty : Forest T N).Has id label span := by
  rintro ⟨families, hnode⟩
  rw [node?_empty] at hnode
  cases hnode

/-- The forest without nodes is sound. -/
theorem open_empty (g : Grammar T N) (input : List T) (position : Nat) :
    (empty : Forest T N).Open g input 0 position where
  sound :=
    { holds := fun h => absurd h (not_has_empty _ _ _)
      unique := fun h => absurd h (not_has_empty _ _ _)
      way := fun h => absurd h.has (not_has_empty _ _ _)
      nodup := fun h => absurd (has_of_node? h) (not_has_empty _ _ _)
      bare := fun h => absurd (has_of_node? h) (not_has_empty _ _ _) }
  marked :=
    { mark_le := Nat.zero_le _
      stop_le := fun h => absurd h (not_has_empty _ _ _)
      behind := fun h => absurd h (not_has_empty _ _ _) }

/-- The nodes of a forest in which one node has been made or changed. -/
theorem has_of_changed {changed other : NodeId} {label label' : Label T N} {span span' : Span}
    {families : List Family}
    (hnode : ∀ other, f'.node? other =
      if other = changed then some ⟨label, span, families⟩ else f.node? other)
    (h : f'.Has other label' span') :
    other = changed ∧ label' = label ∧ span' = span ∨
      other ≠ changed ∧ f.Has other label' span' := by
  rcases h with ⟨families', h⟩
  rw [hnode] at h
  by_cases hother : other = changed
  · rw [if_pos hother, Option.some.injEq, Node.mk.injEq] at h
    exact Or.inl ⟨hother, h.1.symm, h.2.1.symm⟩
  · rw [if_neg hother] at h
    exact Or.inr ⟨hother, families', h⟩

/-- A forest stays sound when one node is made or changed, if what the node
    says afterwards is true and no other node has its label and span. -/
theorem Sound.change (h : f.Sound g input) (hgrows : f.Grows f') {changed : NodeId}
    {families : List Family}
    (hnode : ∀ other, f'.node? other =
      if other = changed then some ⟨label, span, families⟩ else f.node? other)
    (hholds : label.Holds g input span)
    (hunique : ∀ other, f.Has other label span → other = changed)
    (hway : ∀ family ∈ families, f.Way g label span family) (hnodup : families.Nodup)
    (hbare : families = [] ↔ ∃ t, label = .terminal t) : f'.Sound g input where
  holds hhas := by
    rcases has_of_changed hnode hhas with ⟨_, rfl, rfl⟩ | ⟨_, hold⟩
    · exact hholds
    · exact h.holds hold
  unique hhas hhas' := by
    rcases has_of_changed hnode hhas with ⟨rfl, rfl, rfl⟩ | ⟨_, hold⟩
    · rcases has_of_changed hnode hhas' with ⟨rfl, _, _⟩ | ⟨_, hold'⟩
      · rfl
      · exact (hunique _ hold').symm
    · rcases has_of_changed hnode hhas' with ⟨rfl, rfl, rfl⟩ | ⟨_, hold'⟩
      · exact hunique _ hold
      · exact h.unique hold hold'
  way hlists := by
    rcases hlists with ⟨families', hother, hfamily⟩
    rw [hnode] at hother
    split at hother
    · cases hother
      exact (hway _ hfamily).grows hgrows
    · exact (h.way ⟨families', hother, hfamily⟩).grows hgrows
  nodup hother := by
    rw [hnode] at hother
    split at hother
    · cases hother
      exact hnodup
    · exact h.nodup hother
  bare hother := by
    rw [hnode] at hother
    split at hother
    · cases hother
      exact hbare
    · exact h.bare hother

/-- The marks stay right when a node behind the mark is made or changed whose
    span ends at the position. -/
theorem Marked.change {mark position : Nat} (h : f.Marked mark position) (hgrows : f.Grows f')
    {changed : NodeId} {families : List Family}
    (hnode : ∀ other, f'.node? other =
      if other = changed then some ⟨label, span, families⟩ else f.node? other)
    (hmark : mark ≤ changed) (hstop : span.stop = position) : f'.Marked mark position where
  mark_le := Nat.le_trans h.mark_le hgrows.size_le
  stop_le hhas := by
    rcases has_of_changed hnode hhas with ⟨_, _, rfl⟩ | ⟨_, hold⟩
    · exact Nat.le_of_eq hstop
    · exact h.stop_le hold
  behind hhas := by
    rcases has_of_changed hnode hhas with ⟨rfl, _, rfl⟩ | ⟨_, hold⟩
    · simp only [hmark, hstop]
    · exact h.behind hold

/-- A leaf for the terminal behind the last column makes a sound forest, and
    a mark set before it makes it the one node of the next column. -/
theorem open_grow_leaf {mark position : Nat} {t : T} (h : f.Open g input mark position)
    (ht : input[position]? = some t) :
    (f.grow (.terminal t) ⟨position, position + 1⟩).Open g input f.size (position + 1) := by
  have hnode := node?_grow f (.terminal t) ⟨position, position + 1⟩
  constructor
  · refine h.sound.change (grows_grow _ _ _) hnode ⟨ht, rfl⟩ (fun other hhas => ?_)
      (fun family hfamily => absurd hfamily List.not_mem_nil) List.nodup_nil
      ⟨fun _ => ⟨t, rfl⟩, fun _ => rfl⟩
    -- No span of the forest ends behind the last column.
    have hstop := h.marked.stop_le hhas
    simp only at hstop
    omega
  · refine ⟨by rw [size_grow]; omega, fun hhas => ?_, fun hhas => ?_⟩
    · rcases has_of_changed hnode hhas with ⟨_, _, rfl⟩ | ⟨_, hold⟩
      · exact Nat.le_refl _
      · exact Nat.le_succ_of_le (h.marked.stop_le hold)
    · rcases has_of_changed hnode hhas with ⟨rfl, _, rfl⟩ | ⟨_, hold⟩
      · simp only [Nat.le_refl]
      · have hstop := h.marked.stop_le hold
        have hlt := hold.lt_size
        exact ⟨fun hle => absurd hlt (Nat.not_lt_of_le hle), fun heq => by omega⟩

variable [DecidableEq T] [DecidableEq N]

/-- Packing a way to derive what holds of a span that ends at the current
    position keeps a forest sound, and the family is there afterwards. -/
theorem open_pack {mark position : Nat} (label : Label T N) (span : Span)
    (h : f.Open g input mark position) (hstop : span.stop = position)
    (hholds : label.Holds g input span) (hlabel : ∀ t, label ≠ .terminal t)
    (hway : f.Way g label span family) :
    ∃ id f', f.pack mark label span family = (id, f') ∧ f.Grows f' ∧
      f'.Open g input mark position ∧ f'.Lists id label span family := by
  rcases node?_pack f mark label span family with ⟨id, families, f', hpack, hplace, hnode⟩
  rcases Node.addFamily_eq label span families family with ⟨more, hadd, hmem, hmore, hnodup⟩
  rw [hadd] at hnode
  -- The node is the only one there is with its label and span: one that is
  -- not behind the mark has a span that ends earlier.
  have hunique : ∀ other, f.Has other label span → other = id := by
    intro other hhas
    rcases hplace with ⟨hold, _⟩ | ⟨_, _, hnone⟩
    · exact h.sound.unique hhas ⟨families, hold⟩
    · exact absurd hhas (hnone other ((h.marked.behind hhas).mpr hstop))
  have hmark : mark ≤ id := by
    rcases hplace with ⟨_, hmark⟩ | ⟨rfl, _, _⟩
    · exact hmark
    · exact h.marked.mark_le
  have hold : ∀ node, f.node? id = some node → node = ⟨label, span, families⟩ := by
    intro node hid
    rcases hplace with ⟨hold, _⟩ | ⟨rfl, _, _⟩
    · rw [hold, Option.some.injEq] at hid
      exact hid.symm
    · exact absurd (Has.lt_size (has_of_node? hid)) (Nat.lt_irrefl _)
  -- The families that are not new were there before.
  have hfamilies : families.Nodup ∧ ∀ other ∈ families, f.Way g label span other := by
    rcases hplace with ⟨hid, _⟩ | ⟨_, rfl, _⟩
    · exact ⟨h.sound.nodup hid, fun other hother => h.sound.way ⟨families, hid, hother⟩⟩
    · exact ⟨List.nodup_nil, fun other hother => absurd hother List.not_mem_nil⟩
  have hgrows : f.Grows f' := grows_of_changed hnode hold
  refine ⟨id, f', hpack, hgrows, ⟨?_, h.marked.change hgrows hnode hmark hstop⟩,
    ⟨families ++ more, by rw [hnode, if_pos rfl], hmem⟩⟩
  refine h.sound.change hgrows hnode hholds hunique (fun other hother => ?_)
    (hnodup hfamilies.1) ⟨fun hnil => ?_, fun ⟨t, ht⟩ => absurd ht (hlabel t)⟩
  · rcases List.mem_append.mp hother with hother | hother
    · exact hfamilies.2 other hother
    · rw [hmore other hother]
      exact hway
  · rw [hnil] at hmem
    exact absurd hmem List.not_mem_nil

end Forest

end EarleyForest
