import Mathlib.Data.List.Perm.Basic
import EarleyForest.Proofs.Enumeration.Survey
import EarleyForest.Proofs.Forest.Renumbering

/-!
# Nested Loops over Renumbered Nodes

In a forest with its nodes renumbered, nested loops list the same derivations
below the counterpart of a node, in another order. The order in which families
are tried decides when a cycle is met, but not whether it is: a derivation is
left out because of the nodes above it, and these are counterparts too.

## Theorems

* `assemble_renumber`: What a derivation makes of counterparts.
* `nestedBelow_perm`: The derivations of counterparts of families.
* `nested_perm`: The derivations below counterparts.
-/

namespace EarleyForest

namespace Enumeration

variable {T N Tok Out : Type} {σ : Equiv.Perm Nat} {φ : NodeId → NodeId} {f f' : Forest T N}
  {tokens : List Tok} {builder : Builder T N Tok Out}

/-- A derivation makes the same of a node and of its counterpart. -/
theorem assemble_renumber (builder : Builder T N Tok Out) (label : Label T N) (span : Span)
    (family : Family) :
    assemble builder (label.renumber σ) span (family.renumber φ) =
      assemble builder label span family := by
  funext below
  cases label with
  | terminal t => rfl
  | intermediate rule dot => rfl
  | nonterminal n =>
      unfold Label.renumber assemble
      cases family <;> simp only [Family.renumber, reduceCtorEq, if_false]

/-- The derivations of a family are those of its counterpart, if this is so for
    its children. -/
theorem nestedBelow_perm {path path' : List NodeId} {family : Family}
    (h : ∀ child ∈ family.children,
      (nested f' tokens builder path' (φ child)).Perm (nested f tokens builder path child)) :
    (nestedBelow f' tokens builder path' (family.renumber φ)).Perm
      (nestedBelow f tokens builder path family) := by
  cases family with
  | epsilon => exact .refl _
  | unary child => exact h child (List.mem_singleton_self child)
  | binary left right =>
      have hright := h right (List.mem_cons_of_mem _ (List.mem_singleton_self right))
      exact (h left List.mem_cons_self).flatMap fun before _ => hright.map _

/-- Nested loops below the counterpart of a node, with the counterparts of the
    nodes above it, list what they list below the node. -/
theorem nested_perm {g : Grammar T N} {input : List T} (hsound : f.Sound g input)
    (hrenumbers : f.Renumbers σ φ f') {path : List NodeId} {id : NodeId}
    (hpath : ∀ above ∈ path, above < f.size) (hid : id < f.size) :
    (nested f' tokens builder (path.map φ) (φ id)).Perm (nested f tokens builder path id) := by
  -- The counterpart of a node is above if and only if the node is, as different
  -- nodes have different counterparts.
  have hmem : ∀ {path : List NodeId} {id : NodeId}, (∀ above ∈ path, above < f.size) →
      id < f.size → φ id ∈ path.map φ → id ∈ path := by
    intro path id hpath hid h
    rcases List.mem_map.mp h with ⟨above, habove, heq⟩
    rwa [← hrenumbers.bijective.injOn (hpath above habove) hid heq]
  induction path, id using nested.induct f with
  | case1 path id hnode =>
      rcases Forest.exists_has_of_lt hid with ⟨label, span, hhas⟩
      exact absurd hnode hhas.node?_ne_none
  | case2 path id node hnode t hlabel =>
      rcases hrenumbers.node hnode with ⟨families', hnode', _⟩
      rw [nested_leaf hnode hlabel, nested_leaf hnode' (Label.renumber_eq_terminal_iff.mpr hlabel)]
  | case3 path id node hnode hcycle hlabel =>
      rcases hrenumbers.node hnode with ⟨families', hnode', _⟩
      have hlabel' : ∀ t, node.label.renumber σ ≠ .terminal t :=
        fun t ht => hlabel t (Label.renumber_eq_terminal_iff.mp ht)
      rw [nested_cycle hnode hlabel hcycle,
        nested_cycle hnode' hlabel' (List.mem_map_of_mem hcycle)]
  | case4 path id node hnode hcycle hlabel ih =>
      rcases hrenumbers.node hnode with ⟨families', hnode', hfamilies⟩
      have hlabel' : ∀ t, node.label.renumber σ ≠ .terminal t :=
        fun t ht => hlabel t (Label.renumber_eq_terminal_iff.mp ht)
      have hcycle' : φ id ∉ path.map φ := fun h => hcycle (hmem hpath hid h)
      have habove : ∀ above ∈ id :: path, above < f.size := by
        intro above h
        rcases List.mem_cons.mp h with rfl | h
        · exact hid
        · exact hpath above h
      rw [nested_inner hnode hlabel hcycle, nested_inner hnode' hlabel' hcycle']
      -- First the families are brought into the order of their counterparts.
      refine (hfamilies.flatMap_right _).trans ?_
      rw [List.flatMap_map]
      refine List.Perm.flatMap_left _ fun family hfamily => ?_
      rw [assemble_renumber]
      refine (nestedBelow_perm fun child hchild => ?_).map _
      rcases hsound.has_of_mem_children ⟨node.families, hnode, hfamily⟩ child hchild with
        ⟨label, span, hhas⟩
      exact ih child habove hhas.lt_size

end Enumeration

end EarleyForest
