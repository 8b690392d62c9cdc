import Mathlib.Data.List.Nodup
import Mathlib.Data.Set.Function
import Mathlib.Order.Interval.Set.Defs
import EarleyForest.Proofs.Forest.Exactness
import EarleyForest.Proofs.Grammar.Reordering

/-!
# Forests with Renumbered Nodes

With the rules in another order, nodes and families are found in another
order. What comes of it is the same forest with its nodes renumbered and the
rules that labels mention exchanged. The reason is that both forests are exact:
each holds what is true, and that is the same for both.

## Main definitions

* `Family.renumber`: A family of renumbered children.
* `Forest.Renumbers`: One forest is another one renumbered.

## Theorems

* `Exact.carries`: Each node has a counterpart.
* `Way.renumber`: Counterparts derive the same.
* `Sound.bijOn`, `Exact.families_perm`: Nodes and families are exchanged one to
  one.
* `Exact.exists_renumbers`: Exact forests of reordered grammars are each other
  renumbered.
-/

namespace EarleyForest

variable {T N : Type}

/-- The family of the children by their other numbers. -/
def Family.renumber (φ : NodeId → NodeId) : Family → Family
  | epsilon => .epsilon
  | unary child => .unary (φ child)
  | binary left right => .binary (φ left) (φ right)

/-- Families are told apart after a renumbering that tells their children
    apart. -/
theorem Family.renumber_inj {φ : NodeId → NodeId} {family family' : Family}
    (hφ : ∀ child ∈ family.children, ∀ child' ∈ family'.children, φ child = φ child' →
      child = child') (h : family.renumber φ = family'.renumber φ) : family = family' := by
  cases family <;> cases family' <;>
    simp only [renumber, reduceCtorEq, unary.injEq, binary.injEq, children, List.mem_cons,
      List.not_mem_nil, or_false, forall_eq, forall_eq_or_imp] at h hφ ⊢
  · exact hφ h
  · exact ⟨hφ.1.1 h.1, hφ.2.2 h.2⟩

/-- A renumbering that changes no child changes no family. -/
theorem Family.renumber_eq_self {φ : NodeId → NodeId} {family : Family}
    (hφ : ∀ child ∈ family.children, φ child = child) : family.renumber φ = family := by
  cases family with
  | epsilon => rfl
  | unary child => rw [renumber, hφ child (List.mem_singleton_self child)]
  | binary left right =>
      rw [renumber, hφ left List.mem_cons_self,
        hφ right (List.mem_cons_of_mem _ (List.mem_singleton_self right))]

theorem Family.renumber_renumber (φ ψ : NodeId → NodeId) (family : Family) :
    (family.renumber ψ).renumber φ = family.renumber fun child => φ (ψ child) := by
  cases family <;> rfl

namespace Forest

/-- Each node has a counterpart, with the rule of its label exchanged. -/
def Carries (σ : Equiv.Perm Nat) (φ : NodeId → NodeId) (f f' : Forest T N) : Prop :=
  ∀ id label span, f.Has id label span → f'.Has (φ id) (label.renumber σ) span

/-- The second forest is the first one with its nodes renumbered and the rules
    of its labels exchanged. Each node has the families of its counterpart,
    in some order. -/
structure Renumbers (σ : Equiv.Perm Nat) (φ : NodeId → NodeId) (f f' : Forest T N) : Prop where
  bijective : Set.BijOn φ (Set.Iio f.size) (Set.Iio f'.size)
  node {id : NodeId} {label : Label T N} {span : Span} {families : List Family} :
    f.node? id = some ⟨label, span, families⟩ →
    ∃ families', f'.node? (φ id) = some ⟨label.renumber σ, span, families'⟩ ∧
      families'.Perm (families.map (Family.renumber φ))

variable {g g' : Grammar T N} {σ : Equiv.Perm Nat} {input : List T} {f f' : Forest T N}
  {φ ψ : NodeId → NodeId}

theorem exists_has_of_lt {id : NodeId} (h : id < f.size) : ∃ label span, f.Has id label span :=
  ⟨_, _, has_of_node? (Array.getElem?_eq_getElem h)⟩

/-- The nodes of a sound forest have counterparts in an exact one. -/
theorem Exact.carries (hexact : f'.Exact g' input) (hsound : f.Sound g input)
    (h : g.Reorders σ g') : ∃ φ, f.Carries σ φ f' := by
  have hcounterpart : ∀ id, ∃ id', ∀ label span, f.Has id label span →
      f'.Has id' (label.renumber σ) span := by
    intro id
    by_cases hid : ∃ label span, f.Has id label span
    · rcases hid with ⟨label, span, hhas⟩
      rcases hexact.has (h.holds (hsound.holds hhas)) with ⟨id', hhas'⟩
      refine ⟨id', fun label' span' hother => ?_⟩
      rcases hhas.eq hother with ⟨rfl, rfl⟩
      exact hhas'
    · exact ⟨id, fun label span hhas => absurd ⟨label, span, hhas⟩ hid⟩
  choose φ hφ using hcounterpart
  exact ⟨φ, hφ⟩

/-- What the children of a family derive is derived by their counterparts. -/
theorem Way.renumber {label : Label T N} {span : Span} {family : Family}
    (hway : f.Way g label span family) (h : g.Reorders σ g') (hφ : f.Carries σ φ f') :
    f'.Way g' (label.renumber σ) span (family.renumber φ) := by
  cases hway with
  | epsilon rule => exact .epsilon (h.mem_rules _ rule)
  | unary rule below =>
      have hbelow := hφ _ _ _ below
      rw [Symbol.renumber_label] at hbelow
      exact .unary (h.mem_rules _ rule) hbelow
  | binary hbefore hs hafter hleft hright =>
      have hright' := hφ _ _ _ hright
      rw [Symbol.renumber_label] at hright'
      refine .binary ?_ ((h.symbolAt?_eq _ _).trans hs) ?_ (hφ _ _ _ hleft) hright'
      · rw [h.labelAt?_eq, hbefore, Option.map_some]
      · rw [h.labelAt?_eq, hafter, Option.map_some]

/-- The counterpart of a counterpart is the node itself. -/
theorem Sound.carries_back (hsound : f'.Sound g' input) (hφ : f.Carries σ φ f')
    (hψ : f'.Carries σ.symm ψ f) {id : NodeId} {label : Label T N} {span : Span}
    (hhas : f'.Has id label span) : φ (ψ id) = id := by
  have hback := hφ _ _ _ (hψ _ _ _ hhas)
  rw [Label.renumber_renumber_symm] at hback
  exact hsound.unique hback hhas

/-- The children of a family that a sound forest lists are nodes. -/
theorem Sound.has_of_mem_children (hsound : f.Sound g input) {id : NodeId} {label : Label T N}
    {span : Span} {family : Family} (hlists : f.Lists id label span family) :
    ∀ child ∈ family.children, ∃ label' span', f.Has child label' span' := by
  intro child hchild
  rcases hsound.child (hsound.way hlists) hchild with ⟨label', span', hhas, _⟩
  exact ⟨label', span', hhas⟩

/-- Counterparts list the same families, by the other numbers of the
    children. -/
theorem Exact.lists_renumber_iff (hexact : f.Exact g input) (hexact' : f'.Exact g' input)
    (h : g.Reorders σ g') (hφ : f.Carries σ φ f') (hψ : f'.Carries σ.symm ψ f) {id : NodeId}
    {label : Label T N} {span : Span} (hhas : f.Has id label span) {family' : Family} :
    f'.Lists (φ id) (label.renumber σ) span family' ↔
      ∃ family, f.Lists id label span family ∧ family.renumber φ = family' := by
  constructor
  · intro hlists
    -- The family of the counterparts of its children is listed by the node.
    have hback := (hexact'.sound.way hlists).renumber h.symm hψ
    have hlabel : (label.renumber σ).renumber σ.symm = label :=
      Label.renumber_renumber_symm σ.symm label
    rw [hlabel] at hback
    refine ⟨_, hexact.lists hhas hback, ?_⟩
    rw [Family.renumber_renumber]
    refine Family.renumber_eq_self fun child hchild => ?_
    rcases hexact'.sound.has_of_mem_children hlists child hchild with ⟨label', span', hchild'⟩
    exact hexact'.sound.carries_back hφ hψ hchild'
  · rintro ⟨family, hlists, rfl⟩
    exact hexact'.lists (hφ _ _ _ hhas) ((hexact.sound.way hlists).renumber h hφ)

/-- The nodes of two sound forests are exchanged one to one. -/
theorem Sound.bijOn (hsound : f.Sound g input) (hsound' : f'.Sound g' input)
    (hφ : f.Carries σ φ f') (hψ : f'.Carries σ.symm ψ f) :
    Set.BijOn φ (Set.Iio f.size) (Set.Iio f'.size) := by
  have hback : ∀ {id : NodeId} {label : Label T N} {span : Span}, f.Has id label span →
      ψ (φ id) = id :=
    fun hhas => hsound.carries_back (σ := σ.symm) hψ hφ hhas
  refine ⟨?_, ?_, ?_⟩
  · intro id hid
    rcases exists_has_of_lt hid with ⟨label, span, hhas⟩
    exact (hφ _ _ _ hhas).lt_size
  · intro id hid other hother heq
    rcases exists_has_of_lt hid with ⟨label, span, hhas⟩
    rcases exists_has_of_lt hother with ⟨label', span', hhas'⟩
    rw [← hback hhas, heq, hback hhas']
  · intro id hid
    rcases exists_has_of_lt hid with ⟨label, span, hhas⟩
    exact ⟨ψ id, (hψ _ _ _ hhas).lt_size, hsound'.carries_back hφ hψ hhas⟩

/-- The families of counterparts are the same ones by the other numbers of the
    children, in some order. -/
theorem Exact.families_perm (hexact : f.Exact g input) (hexact' : f'.Exact g' input)
    (h : g.Reorders σ g') (hφ : f.Carries σ φ f') (hψ : f'.Carries σ.symm ψ f) {id : NodeId}
    {label : Label T N} {span : Span} {families families' : List Family}
    (hnode : f.node? id = some ⟨label, span, families⟩)
    (hnode' : f'.node? (φ id) = some ⟨label.renumber σ, span, families'⟩) :
    families'.Perm (families.map (Family.renumber φ)) := by
  have hinj := (hexact.sound.bijOn hexact'.sound hφ hψ).injOn
  have hlt : ∀ family ∈ families, ∀ child ∈ family.children, child < f.size := by
    intro family hfamily child hchild
    rcases hexact.sound.has_of_mem_children ⟨families, hnode, hfamily⟩ child hchild with
      ⟨_, _, hhas⟩
    exact hhas.lt_size
  -- Neither lists a family twice, so it is enough that they list the same.
  have hnodup : (families.map (Family.renumber φ)).Nodup :=
    (hexact.sound.nodup hnode).map_on fun family hfamily other hother =>
      Family.renumber_inj fun child hchild child' hchild' =>
        hinj (hlt family hfamily child hchild) (hlt other hother child' hchild')
  refine (List.perm_ext_iff_of_nodup (hexact'.sound.nodup hnode') hnodup).mpr fun family' => ?_
  rw [← lists_iff_mem hnode', hexact.lists_renumber_iff hexact' h hφ hψ ⟨families, hnode⟩,
    List.mem_map]
  simp only [lists_iff_mem hnode]

/-- Exact forests of grammars whose rules stand in different orders are each
    other renumbered. -/
theorem Exact.exists_renumbers (hexact : f.Exact g input) (hexact' : f'.Exact g' input)
    (h : g.Reorders σ g') : ∃ φ, f.Renumbers σ φ f' := by
  rcases hexact'.carries hexact.sound h with ⟨φ, hφ⟩
  rcases hexact.carries hexact'.sound h.symm with ⟨ψ, hψ⟩
  refine ⟨φ, hexact.sound.bijOn hexact'.sound hφ hψ, fun {id label span families} hnode => ?_⟩
  rcases hφ id label span ⟨families, hnode⟩ with ⟨families', hnode'⟩
  exact ⟨families', hnode', hexact.families_perm hexact' h hφ hψ hnode hnode'⟩

end Forest

end EarleyForest
