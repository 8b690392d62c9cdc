import EarleyForest.Proofs.Parser.Rooted

/-!
# One at a Time or All at Once

An enumeration keeps nothing but the digits of an odometer, walks anew from the
root for each thing that it gives, and passes over whole groups of settings at
a cycle. Nested loops keep their place at every node instead. Both give the
same things in the same order, from any node of a parse that may be a root and
with any cycles below it.

## Theorems

* `derivations_of_nested`: Nested loops below such a node list single things.
* `enumeration_eq_nested`: The enumeration gives them in their order.
-/

namespace EarleyForest

variable {T N Tok Out : Type}

/-- Below a node that is no part of a rule's body nested loops list derivations
    that make one thing each, so that joining them loses nothing. -/
theorem Enumeration.derivations_of_nested {f : Forest T N} {tokens : List Tok}
    {builder : Builder T N Tok Out} {id : NodeId} {node : Node T N}
    (hnode : f.node? id = some node) (hlabel : node.label.isIntermediate = false) :
    nested f tokens builder [] id =
      (nested f tokens builder [] id).flatten.map fun out => [out] := by
  have hone : ∀ outs ∈ nested f tokens builder [] id, outs.length = 1 :=
    fun outs => length_of_mem_nested hnode hlabel
  generalize nested f tokens builder [] id = derivations at hone
  induction derivations with
  | nil => rfl
  | cons outs rest ih =>
      rcases List.length_eq_one_iff.mp (hone outs List.mem_cons_self) with ⟨out, rfl⟩
      rw [List.flatten_cons, List.singleton_append, List.map_cons,
        ← ih fun outs' h => hone outs' (List.mem_cons_of_mem _ h)]

namespace Parser

variable [DecidableEq T] [DecidableEq N]

/-- From any node of a parse that is no part of a rule's body, with a token for
    each position that it covers, an enumeration gives what nested loops below
    the node list: one thing for each of their derivations, in their order, and
    nothing behind the last one. It does not fail. -/
theorem enumeration_eq_nested (p : Parser T N) (input : List T) (tokens : List Tok) {id : NodeId}
    {node : Node T N} (hnode : (p.parse input).forest.node? id = some node)
    (hlabel : node.label.isIntermediate = false) (htokens : node.span.stop ≤ tokens.length)
    (builder : Builder T N Tok Out) :
    ∃ (e : Enumeration T N Tok Out) (outs : List Out),
      Enumeration.ofRoot (p.parse input).forest (some id) tokens builder = .ok e ∧
        Enumeration.nested (p.parse input).forest tokens builder [] id =
          outs.map (fun out => [out]) ∧
        e.Yields outs ∧ ∀ count, e.given? count = outs[count]? := by
  have hsound := (p.grammar.parse_exact input).sound
  rcases Enumeration.yields_nested hsound (Forest.has_of_node? hnode) hlabel htokens builder with
    ⟨e, he, hyields⟩
  exact ⟨e, _, he, Enumeration.derivations_of_nested hnode hlabel, hyields,
    Enumeration.given?_of_yields hyields⟩

/-- The node that is its own child: of its two families the first gives a tree
    and the second, which leads back to it, none. -/
theorem looped_eq_nested :
    ∃ e : Enumeration Char Nat Char (Tree Nat Char),
      Enumeration.ofRoot (looped.parse ['a']).forest (some 1) ['a'] Builder.tree = .ok e ∧
      ∀ count, e.given? count = [Tree.branch 0 ⟨0, 1⟩ [.leaf 'a' ⟨0, 1⟩]][count]? := by
  rcases enumeration_eq_nested looped ['a'] ['a'] looped_node_one rfl (Nat.le_refl 1)
    Builder.tree with ⟨e, outs, he, hnested, _, hgiven⟩
  have hinner : ∀ t, (Label.nonterminal 0 : Label Char Nat) ≠ .terminal t := fun t h => by cases h
  rw [Enumeration.nested_inner looped_node_one hinner List.not_mem_nil] at hnested
  simp only [List.flatMap_cons, List.flatMap_nil, Enumeration.nestedBelow,
    Enumeration.nested_leaf looped_node_zero rfl,
    Enumeration.nested_cycle looped_node_one hinner List.mem_cons_self] at hnested
  have houts : outs = [Tree.branch 0 ⟨0, 1⟩ [.leaf 'a' ⟨0, 1⟩]] := by
    refine List.map_injective_iff.mpr (fun a b h => List.cons.inj h |>.1) (hnested.symm.trans ?_)
    rfl
  rw [houts] at hgiven
  exact ⟨e, he, hgiven⟩

end Parser

end EarleyForest
