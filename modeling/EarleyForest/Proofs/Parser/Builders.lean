import EarleyForest.Proofs.Enumeration.Mirroring
import EarleyForest.Proofs.Parser.Finite
import EarleyForest.Proofs.Parser.Reordered

/-!
# Any Builder and Any Tokens

An enumeration from a node of a parse gives as many things for one builder and
one list of tokens as for any other, and each of them is what the builder makes
of the derivation tree in its place. The calls of the attempt that gives it are
those for the subtrees of that tree, and for nothing else.

Attempts that run into a cycle call the builder as well. There are none if no
node below the root leads back to itself, and then these are all the calls.

## Main definitions

* `Enumeration.Paired`: Two enumerations at one setting.

## Theorems

* `Paired.next`, `Paired.after`: Enumerations that go on stay at one setting.
* `Paired.folds`: What they give in the same place.
* `Paired.attempts`: How many attempts there are without cycles.
* `enumeration_folds`: What an enumeration gives, and by which calls.
-/

namespace EarleyForest

variable {T N Tok Tok' Out : Type}

namespace Enumeration

section

variable {input : List T} {f : Forest T N} {tokens : List Tok} {tokens' : List Tok'}
  {builder : Builder T N Tok Out} {root : NodeId} {allowed : Halt → Prop}

/-- Attempts in step halt for allowed reasons. -/
theorem allowed_of_mirrors {first : List (Attempt T N Tok' (Tree N Tok'))}
    {second : List (Attempt T N Tok Out)}
    (h : List.Forall₂ (Attempt.Mirrors allowed input tokens builder) first second)
    {tried : Attempt T N Tok Out} (htried : tried ∈ second) {reason : Halt}
    (hending : tried.ending = .halted reason) : allowed reason := by
  induction h with
  | nil => exact absurd htried List.not_mem_nil
  | cons hfirst hrest ih =>
      rcases List.mem_cons.mp htried with rfl | htried
      · cases hfirst with
        | built fold made => cases hending
        | halted halts =>
            cases hending
            exact halts
      · exact ih htried

/-- The last attempts are in step if all are. -/
theorem last_of_mirrors {first : List (Attempt T N Tok' (Tree N Tok'))}
    {second : List (Attempt T N Tok Out)}
    (h : List.Forall₂ (Attempt.Mirrors allowed input tokens builder) first second) :
    first = [] ∧ second = [] ∨
      ∃ pruned pruned' last last', first = pruned' ++ [last'] ∧ second = pruned ++ [last] ∧
        last'.Mirrors allowed input tokens builder last := by
  induction h with
  | nil => exact Or.inl ⟨rfl, rfl⟩
  | @cons a b as bs hfirst hrest ih =>
      refine Or.inr ?_
      rcases ih with ⟨rfl, rfl⟩ | ⟨pruned, pruned', last, last', rfl, rfl, hlast⟩
      · exact ⟨[], [], b, a, rfl, rfl, hfirst⟩
      · exact ⟨b :: pruned, a :: pruned', last, last', rfl, rfl, hlast⟩

/-- Two enumerations from one root, one of which makes trees, that come to the
    same setting next. -/
inductive Paired (f : Forest T N) (tokens' : List Tok') (tokens : List Tok)
    (builder : Builder T N Tok Out) (root : NodeId) :
    Enumeration T N Tok' (Tree N Tok') → Enumeration T N Tok Out → Prop where
  | ended : Paired f tokens' tokens builder root ⟨f, tokens', Builder.tree, none⟩
      ⟨f, tokens, builder, none⟩
  | going (setting : List Digit) : Paired f tokens' tokens builder root
      ⟨f, tokens', Builder.tree, some (root, setting)⟩ ⟨f, tokens, builder, some (root, setting)⟩

/-- Enumerations that go on make attempts in step, and come to the same setting
    again. -/
theorem Paired.next {e' : Enumeration T N Tok' (Tree N Tok')} {e : Enumeration T N Tok Out}
    (hpaired : Paired f tokens' tokens builder root e' e)
    (h : InStep allowed input f tokens' tokens builder root) :
    List.Forall₂ (Attempt.Mirrors allowed input tokens builder) e'.next.1.attempts
        e.next.1.attempts ∧ Paired f tokens' tokens builder root e'.next.2 e.next.2 := by
  cases hpaired with
  | ended => exact ⟨.nil, .ended⟩
  | going setting =>
      have hsearch := h.search setting
      refine ⟨hsearch, ?_⟩
      -- The next setting is told by the last attempts.
      have hfollowing : following? (search f tokens' Builder.tree root setting) =
          following? (search f tokens builder root setting) := by
        rcases last_of_mirrors hsearch with
          ⟨hnil, hnil'⟩ | ⟨pruned, pruned', last, last', hfirst, hsecond, hlast⟩
        · rw [hnil, hnil']
          rfl
        · rw [hfirst, hsecond]
          rw [following?_concat, following?_concat]
          cases hlast with
          | built fold made => rfl
          | @halted reason _ _ _ halts => cases reason <;> rfl
      simp only [Enumeration.next, hfollowing]
      cases following? (search f tokens builder root setting) with
      | none => exact .ended
      | some next => exact .going next

/-- However often they go on. -/
theorem Paired.after {e' : Enumeration T N Tok' (Tree N Tok')} {e : Enumeration T N Tok Out}
    (hpaired : Paired f tokens' tokens builder root e' e)
    (h : InStep allowed input f tokens' tokens builder root) (count : Nat) :
    Paired f tokens' tokens builder root (e'.after count) (e.after count) := by
  induction count generalizing e' e with
  | zero => exact hpaired
  | succ count ih => exact ih (hpaired.next h).2

/-- Each thing given by one enumeration is made of the tree that the other one
    gives in its place, by the calls of its last attempt. -/
theorem Paired.folds {e' : Enumeration T N Tok' (Tree N Tok')} {e : Enumeration T N Tok Out}
    (hpaired : Paired f tokens' tokens builder root e' e)
    (h : InStep allowed input f tokens' tokens builder root)
    {trees : List (Tree N Tok')} {outs : List Out} (hyields' : e'.Yields trees)
    (hyields : e.Yields outs) (count : Nat) :
    trees[count]? = none ∧ outs[count]? = none ∨
      ∃ tree out pruned last, trees[count]? = some tree ∧ outs[count]? = some out ∧
        tree.fold? input tokens builder = some out ∧
        (e.after count).next.1.attempts = pruned ++ [last] ∧
        tree.postorder.map (Tree.call? input tokens) = last.calls.map some := by
  rw [← given?_of_yields hyields', ← given?_of_yields hyields, given?_eq_after, given?_eq_after]
  simp only [Pull.built?]
  rcases last_of_mirrors ((hpaired.after h count).next h).1 with
    ⟨hnil', hnil⟩ | ⟨pruned, pruned', last, last', hfirst, hsecond, hlast⟩
  · rw [hnil, hnil']
    exact Or.inl ⟨rfl, rfl⟩
  · simp only [hfirst, hsecond, List.getLast?_concat, Option.bind_some]
    cases hlast with
    | halted halts => exact Or.inl ⟨rfl, rfl⟩
    | built fold made => exact Or.inr ⟨_, _, pruned, _, rfl, rfl, fold, rfl, made⟩

/-- What one enumeration gives is made of the trees that the other one gives. -/
theorem Paired.map_fold? {e' : Enumeration T N Tok' (Tree N Tok')} {e : Enumeration T N Tok Out}
    (hpaired : Paired f tokens' tokens builder root e' e)
    (h : InStep allowed input f tokens' tokens builder root)
    {trees : List (Tree N Tok')} {outs : List Out} (hyields' : e'.Yields trees)
    (hyields : e.Yields outs) :
    outs.map some = trees.map (Tree.fold? input tokens builder) := by
  refine List.ext_getElem? fun count => ?_
  rw [List.getElem?_map, List.getElem?_map]
  rcases hpaired.folds h hyields' hyields count with
    ⟨htree, hout⟩ | ⟨tree, out, _, _, htree, hout, hfold, _, _⟩
  · rw [htree, hout]
    rfl
  · rw [htree, hout, Option.map_some, Option.map_some, hfold]

/-- The attempt that gives the thing in the place of a tree makes the calls for
    the subtrees of that tree. -/
theorem Paired.calls {e' : Enumeration T N Tok' (Tree N Tok')} {e : Enumeration T N Tok Out}
    (hpaired : Paired f tokens' tokens builder root e' e)
    (h : InStep allowed input f tokens' tokens builder root)
    {trees : List (Tree N Tok')} {outs : List Out} (hyields' : e'.Yields trees)
    (hyields : e.Yields outs) {count : Nat} {tree : Tree N Tok'}
    (htree : trees[count]? = some tree) :
    ∃ (pruned : List (Attempt T N Tok Out)) (last : Attempt T N Tok Out),
      (e.after count).next.1.attempts = pruned ++ [last] ∧
      last.calls.map some = tree.postorder.map (Tree.call? input tokens) := by
  rcases hpaired.folds h hyields' hyields count with
    ⟨hnone, _⟩ | ⟨tree', _, pruned, last, htree', _, _, hattempts, hcalls⟩
  · rw [htree] at hnone
    cases hnone
  · rw [htree, Option.some.injEq] at htree'
    rw [htree']
    exact ⟨pruned, last, hattempts, hcalls.symm⟩

/-- If no attempt runs into a cycle, there is one attempt for each thing given,
    and none behind the last one. -/
theorem Paired.attempts {e' : Enumeration T N Tok' (Tree N Tok')} {e : Enumeration T N Tok Out}
    (hpaired : Paired f tokens' tokens builder root e' e)
    (h : InStep (· ≠ .cycle) input f tokens' tokens builder root)
    {outs : List Out} (hyields : e.Yields outs) (count : Nat) :
    outs[count]? = none ∧ (e.after count).next.1.attempts = [] ∨
      ∃ out last, outs[count]? = some out ∧ (e.after count).next.1.attempts = [last] := by
  have hnever : ∀ tried ∈ (e.after count).next.1.attempts, tried.ending ≠ .halted .cycle :=
    fun tried htried hcycle =>
      allowed_of_mirrors ((hpaired.after h count).next h).1 htried hcycle rfl
  rcases (hyields.after count).attempts with
    ⟨hnone, hnil⟩ | ⟨pruned, last, hattempts, hpruned, hlast⟩
  · rw [List.drop_eq_nil_iff, ← List.getElem?_eq_none_iff] at hnil
    exact Or.inl ⟨hnil, hnone⟩
  · rw [hattempts] at hnever ⊢
    have hnil : pruned = [] := List.eq_nil_iff_forall_not_mem.mpr fun tried htried =>
      hnever tried (List.mem_append_left _ htried) (hpruned tried htried)
    rcases hlast with ⟨out, _, hout⟩ | ⟨hcycle, _⟩
    · rw [List.head?_drop] at hout
      rw [hnil]
      exact Or.inr ⟨out, last, hout, rfl⟩
    · exact absurd hcycle (hnever last (List.mem_append_right _ (List.mem_singleton_self last)))

end

end Enumeration

namespace Parser

variable [DecidableEq T] [DecidableEq N]

/-- From any node of a parse that is no part of a rule's body there is a list of
    trees, and with enough tokens an enumeration gives for each of them what
    the builder makes of it, and nothing else. The calls of the attempt that
    gives it are one for each of its subtrees, in postorder. If no node below
    leads back to itself, there is no other attempt, and none behind the end. -/
theorem enumeration_folds (p : Parser T N) (input : List T) (tokens' : List Tok') {id : NodeId}
    {node : Node T N} (hnode : (p.parse input).forest.node? id = some node)
    (hlabel : node.label.isIntermediate = false) (htokens' : node.span.stop ≤ tokens'.length) :
    ∃ (e' : Enumeration T N Tok' (Tree N Tok')) (trees : List (Tree N Tok')),
      Enumeration.ofRoot (p.parse input).forest (some id) tokens' Builder.tree = .ok e' ∧
      (∀ count, e'.given? count = trees[count]?) ∧
      (∀ tree ∈ trees, tree.postorder.Perm tree.subtrees) ∧
      ∀ {Tok Out : Type} (tokens : List Tok) (builder : Builder T N Tok Out),
        node.span.stop ≤ tokens.length →
        ∃ (e : Enumeration T N Tok Out) (outs : List Out),
          Enumeration.ofRoot (p.parse input).forest (some id) tokens builder = .ok e ∧
          (∀ count, e.given? count = outs[count]?) ∧
          outs.length = trees.length ∧
          outs.map some = trees.map (Tree.fold? input tokens builder) ∧
          (∀ count tree, trees[count]? = some tree →
            ∃ (pruned : List (Attempt T N Tok Out)) (last : Attempt T N Tok Out),
              (e.after count).next.1.attempts = pruned ++ [last] ∧
              last.calls.map some = tree.postorder.map (Tree.call? input tokens)) ∧
          ((∀ v, Relation.ReflTransGen (p.parse input).forest.Child v id →
              ¬ Relation.TransGen (p.parse input).forest.Child v v) → ∀ count,
            (∀ tree, trees[count]? = some tree → (e.after count).next.1.attempts.length = 1 ∧
              (e.after count).next.1.calls.map some =
                tree.postorder.map (Tree.call? input tokens)) ∧
            (trees[count]? = none → (e.after count).next.1.attempts = [] ∧
              (e.after count).next.1.calls = [])) := by
  have hsound : (p.parse input).forest.Sound p.grammar input :=
    (p.grammar.parse_exact input).sound
  have hhas := Forest.has_of_node? hnode
  rcases Enumeration.yields_nested hsound hhas hlabel htokens' Builder.tree with ⟨e', he', hyields'⟩
  refine ⟨e', _, he', Enumeration.given?_of_yields hyields', fun tree _ => tree.postorder_perm,
    fun {Tok Out} tokens builder htokens => ?_⟩
  rcases Enumeration.yields_nested hsound hhas hlabel htokens builder with ⟨e, he, hyields⟩
  have hpaired : Enumeration.Paired (p.parse input).forest tokens' tokens builder id e' e := by
    rw [(Enumeration.ofRoot_eq_ok_iff.mp he').1, (Enumeration.ofRoot_eq_ok_iff.mp he).1]
    exact .going []
  -- The attempts of both enumerations are in step. They run into a cycle only
  -- if there is one below the root.
  have hmirrors : ∀ allowed : Halt → Prop, allowed .fault →
      (allowed .cycle ∨ (p.parse input).forest.Clear [] id) →
      Enumeration.InStep allowed input (p.parse input).forest tokens' tokens builder id :=
    fun allowed hfault hcycle => Enumeration.inStep_of_mirrors
      (Walk.mirrors_walk hsound hfault [] hcycle hhas htokens' htokens) hfault
  have hany := hmirrors (fun _ => True) trivial (Or.inl trivial)
  have houts := hpaired.map_fold? hany hyields' hyields
  have hlength := congrArg List.length houts
  rw [List.length_map, List.length_map] at hlength
  refine ⟨e, _, he, Enumeration.given?_of_yields hyields, hlength, houts,
    fun count tree => hpaired.calls hany hyields' hyields, fun hacyclic count => ?_⟩
  have hclear : (p.parse input).forest.Clear [] id :=
    fun v hv => ⟨List.not_mem_nil, hacyclic v hv⟩
  have hnever := hmirrors (· ≠ .cycle) (fun h => by cases h) (Or.inr hclear)
  rcases hpaired.attempts hnever hyields count with ⟨hnone, hnil⟩ | ⟨out, only, hout, honly⟩
  · rw [List.getElem?_eq_none_iff, hlength, ← List.getElem?_eq_none_iff] at hnone
    rw [Pull.calls, hnil, hnone]
    exact ⟨fun tree htree => (by cases htree), fun _ => ⟨rfl, rfl⟩⟩
  · refine ⟨fun tree htree => ?_, fun hnone => ?_⟩
    · -- The attempt that gives the thing is the only one.
      rcases hpaired.calls hany hyields' hyields htree with ⟨pruned, last, hattempts, hlast⟩
      rw [honly, ← List.nil_append [only]] at hattempts
      rcases List.append_inj' hattempts rfl with ⟨_, hsame⟩
      rw [Pull.calls, honly, List.flatMap_singleton, (List.cons.inj hsame).1]
      exact ⟨rfl, hlast⟩
    · rw [List.getElem?_eq_none_iff, ← hlength, ← List.getElem?_eq_none_iff, hout] at hnone
      cases hnone

/-- Two trees, and the numbers of their subtrees over another token: no attempt
    is made in vain. -/
theorem forked_folds :
    ∃ (e' : Enumeration Char Nat Char (Tree Nat Char)) (e : Enumeration Char Nat String Nat),
      Enumeration.ofRoot (forked.parse ['a']).forest (some 3) ['a'] Builder.tree = .ok e' ∧
      Enumeration.ofRoot (forked.parse ['a']).forest (some 3) ["x"]
        ⟨fun _ _ _ => 1, fun _ _ => 1, fun _ _ below => below.sum + 1⟩ = .ok e ∧
      ∀ count tree, e'.given? count = some tree →
        (e.after count).next.1.attempts.length = 1 ∧
        (e.after count).next.1.calls.map some =
          tree.postorder.map (Tree.call? ['a'] ["x"]) := by
  rcases enumeration_folds forked ['a'] ['a'] forked_node_three rfl (Nat.le_refl 1) with
    ⟨e', trees, he', hgiven', _, hany⟩
  rcases hany ["x"] ⟨fun _ _ _ => 1, fun _ _ => 1, fun _ _ below => below.sum + 1⟩
    (Nat.le_refl 1) with ⟨e, _, he, _, _, _, _, hattempts⟩
  refine ⟨e', e, he', he, fun count tree htree => ?_⟩
  rw [hgiven'] at htree
  exact (hattempts (fun v _ => Forest.not_cycle_of_lt (by decide) v) count).1 tree htree

end Parser

end EarleyForest
