import EarleyForest.Enumeration.Nested
import EarleyForest.Proofs.Enumeration.Plan
import EarleyForest.Proofs.Forest.Soundness

/-!
# Surveying a Walk

The walk below a node of a forest, with its choices left open. Each setting
makes of this plan the walk that the setting leads through, and all its
outcomes together build the derivations below the node in the order in which
nested loops list them.

In a sound forest, with a token for every position, no walk halts but at a
node that is on the path above it.

## Main definitions

* `Plan.walk`: The plan of a walk.
* `Enumeration.nestedBelow`: The derivations below one family.

## Theorems

* `walk_of_node?`, `nested_of_node?`: What is done at a node.
* `walk_leaf`, `walk_cycle`, `walk_inner`, `nested_leaf`, `nested_cycle`,
  `nested_inner`: What is done at each kind of node.
* `mem_nestedBelow_binary`, `exists_family_of_mem_nested`: Where something
  that is listed comes from.
* `run_walk`: The walks of the plan.
* `built_walk`: The derivations that the plan builds.
* `ends_walk`: How walks end in a sound forest.
-/

namespace EarleyForest

variable {T N Tok Out : Type}

section

variable {f : Forest T N} {tokens : List Tok} {builder : Builder T N Tok Out}
  {path : List NodeId} {id : NodeId} {node : Node T N}

namespace Walk

/-- What a walk does at a node is told by the node's label. -/
theorem walk_of_node? (hnode : f.node? id = some node) :
    walk f tokens builder path id =
      match node.label with
      | .terminal t => leaf tokens builder t node.span
      | _ =>
        if id ∈ path then throw .cycle
        else (do
          let family ← choose node.families
          (match family with
            | .epsilon => pure []
            | .unary child => walk f tokens builder (id :: path) child
            | .binary left right => do
              let before ← walk f tokens builder (id :: path) left
              let behind ← walk f tokens builder (id :: path) right
              pure (before ++ behind)) >>= finish builder node family) := by
  rw [walk]
  split
  · rename_i hnone
    rw [hnode] at hnone
    cases hnone
  · rename_i node' hnode'
    rw [hnode, Option.some.injEq] at hnode'
    subst hnode'
    cases node.label <;> rfl

theorem walk_missing (hnode : f.node? id = none) :
    walk f tokens builder path id = throw .fault := by
  rw [walk]
  split
  · rfl
  · rename_i node' hnode'
    rw [hnode] at hnode'
    cases hnode'

theorem walk_leaf {t : T} (hnode : f.node? id = some node) (hlabel : node.label = .terminal t) :
    walk f tokens builder path id = leaf tokens builder t node.span := by
  rw [walk_of_node? hnode, hlabel]

theorem walk_cycle (hnode : f.node? id = some node) (hlabel : ∀ t, node.label ≠ .terminal t)
    (hpath : id ∈ path) : walk f tokens builder path id = throw .cycle := by
  rw [walk_of_node? hnode]
  split
  · rename_i t ht
    exact absurd ht (hlabel t)
  · exact if_pos hpath

theorem walk_inner (hnode : f.node? id = some node) (hlabel : ∀ t, node.label ≠ .terminal t)
    (hpath : id ∉ path) : walk f tokens builder path id = (do
      let family ← choose node.families
      (match family with
        | .epsilon => pure []
        | .unary child => walk f tokens builder (id :: path) child
        | .binary left right => do
          let before ← walk f tokens builder (id :: path) left
          let behind ← walk f tokens builder (id :: path) right
          pure (before ++ behind)) >>= finish builder node family) := by
  rw [walk_of_node? hnode]
  split
  · rename_i t ht
    exact absurd ht (hlabel t)
  · exact if_neg hpath

end Walk

namespace Enumeration

/-- All derivations of a family, each as the list of what it makes below the
    family's node. -/
def nestedBelow (f : Forest T N) (tokens : List Tok) (builder : Builder T N Tok Out)
    (path : List NodeId) : Family → List (List Out)
  | .epsilon => [[]]
  | .unary child => nested f tokens builder path child
  | .binary left right =>
    (nested f tokens builder path left).flatMap fun before =>
      (nested f tokens builder path right).map (before ++ ·)

/-- What is listed below a node is told by the node's label. -/
theorem nested_of_node? (hnode : f.node? id = some node) :
    nested f tokens builder path id =
      match node.label with
      | .terminal t => tokens[node.span.start]?.toList.map fun token =>
          [builder.leaf t token node.span]
      | label =>
        if id ∈ path then []
        else node.families.flatMap fun family =>
          (nestedBelow f tokens builder (id :: path) family).map
            (assemble builder label node.span family) := by
  rw [nested]
  split
  · rename_i hnone
    rw [hnode] at hnone
    cases hnone
  · rename_i node' hnode'
    rw [hnode, Option.some.injEq] at hnode'
    subst hnode'
    have hbelow : ∀ family : Family, nestedBelow f tokens builder (id :: path) family =
        match family with
        | .epsilon => [[]]
        | .unary child => nested f tokens builder (id :: path) child
        | .binary left right =>
          (nested f tokens builder (id :: path) left).flatMap fun before =>
            (nested f tokens builder (id :: path) right).map (before ++ ·) := by
      intro family
      cases family <;> rfl
    simp only [hbelow]
    cases node.label <;> rfl

theorem nested_missing (hnode : f.node? id = none) : nested f tokens builder path id = [] := by
  rw [nested]
  split
  · rfl
  · rename_i node' hnode'
    rw [hnode] at hnode'
    cases hnode'

theorem nested_leaf {t : T} (hnode : f.node? id = some node)
    (hlabel : node.label = .terminal t) : nested f tokens builder path id =
      tokens[node.span.start]?.toList.map fun token => [builder.leaf t token node.span] := by
  rw [nested_of_node? hnode, hlabel]

theorem nested_cycle (hnode : f.node? id = some node) (hlabel : ∀ t, node.label ≠ .terminal t)
    (hpath : id ∈ path) : nested f tokens builder path id = [] := by
  rw [nested_of_node? hnode]
  split
  · rename_i t ht
    exact absurd ht (hlabel t)
  · exact if_pos hpath

theorem nested_inner (hnode : f.node? id = some node) (hlabel : ∀ t, node.label ≠ .terminal t)
    (hpath : id ∉ path) : nested f tokens builder path id =
      node.families.flatMap fun family => (nestedBelow f tokens builder (id :: path) family).map
        (assemble builder node.label node.span family) := by
  rw [nested_of_node? hnode]
  split
  · rename_i t ht
    exact absurd ht (hlabel t)
  · exact if_neg hpath

theorem mem_nestedBelow_binary {left right : NodeId} {outs : List Out} :
    outs ∈ nestedBelow f tokens builder path (.binary left right) ↔
      ∃ before behind, outs = before ++ behind ∧
        before ∈ nested f tokens builder path left ∧
        behind ∈ nested f tokens builder path right := by
  simp only [nestedBelow, List.mem_flatMap, List.mem_map]
  constructor
  · rintro ⟨before, hbefore, behind, hbehind, rfl⟩
    exact ⟨before, behind, rfl, hbefore, hbehind⟩
  · rintro ⟨before, behind, rfl, hbefore, hbehind⟩
    exact ⟨before, hbefore, behind, hbehind, rfl⟩

/-- What is listed below a node is what one of its families makes of something
    listed below that family. -/
theorem exists_family_of_mem_nested (hnode : f.node? id = some node)
    (hlabel : ∀ t, node.label ≠ .terminal t) (hpath : id ∉ path) {outs : List Out}
    (h : outs ∈ nested f tokens builder path id) :
    ∃ family ∈ node.families, ∃ below ∈ nestedBelow f tokens builder (id :: path) family,
      assemble builder node.label node.span family below = outs := by
  rw [nested_inner hnode hlabel hpath] at h
  rcases List.mem_flatMap.mp h with ⟨family, hfamily, h⟩
  exact ⟨family, hfamily, List.mem_map.mp h⟩

end Enumeration

end

namespace Plan

/-- Leaves open by which family of a node the derivation goes on. -/
def choose : List Family → Plan T N Tok Family
  | [] => halt .fault
  | [only] => done only
  | first :: second :: rest => fork (rest.length + 1) fun taken =>
    match (first :: second :: rest)[taken]? with
    | none => halt .fault
    | some family => done family

/-- Makes a leaf of the token at the start of a span. -/
def leaf (tokens : List Tok) (builder : Builder T N Tok Out) (terminal : T) (span : Span) :
    Plan T N Tok (List Out) :=
  match tokens[span.start]? with
  | none => halt .fault
  | some token => note (.leaf terminal token span) (done [builder.leaf terminal token span])

/-- Makes what a node stands for out of what was made below it. -/
def finish (builder : Builder T N Tok Out) (node : Node T N) (family : Family)
    (below : List Out) : Plan T N Tok (List Out) :=
  match node.label, family with
  | .nonterminal n, .epsilon => note (.covert n node.span) (done [builder.covert n node.span])
  | .nonterminal n, _ =>
    note (.branch n node.span below.length) (done [builder.branch n node.span below])
  | _, _ => done below

/-- The plan of the walk below a node. `path` holds the nodes above it. -/
def walk (f : Forest T N) (tokens : List Tok) (builder : Builder T N Tok Out)
    (path : List NodeId) (id : NodeId) : Plan T N Tok (List Out) :=
  match _hnode : f.node? id with
  | none => halt .fault
  | some node =>
    match node.label with
    | .terminal t => leaf tokens builder t node.span
    | _ =>
      if _hpath : id ∈ path then halt .cycle
      else (choose node.families).bind fun family =>
        (match family with
          | .epsilon => done []
          | .unary child => walk f tokens builder (id :: path) child
          | .binary left right =>
            (walk f tokens builder (id :: path) left).bind fun before =>
              (walk f tokens builder (id :: path) right).bind fun behind =>
                done (before ++ behind)).bind (finish builder node family)
termination_by f.unvisited path
decreasing_by all_goals exact Forest.unvisited_cons_lt _hnode _hpath

section

variable (tokens : List Tok) (builder : Builder T N Tok Out)

theorem run_choose (families : List Family) :
    (choose families : Plan T N Tok Family).run = Walk.choose families := by
  match families with
  | [] => rfl
  | [only] => rfl
  | first :: second :: rest =>
      simp only [choose, run, Walk.choose, List.length_cons]
      refine congrArg (Walk.digit (rest.length + 1 + 1) >>= ·) (funext fun taken => ?_)
      cases (first :: second :: rest)[taken]? <;> rfl

theorem run_leaf (terminal : T) (span : Span) :
    (leaf tokens builder terminal span).run = Walk.leaf tokens builder terminal span := by
  unfold leaf Walk.leaf
  cases tokens[span.start]? <;> rfl

theorem run_finish (node : Node T N) (family : Family) (below : List Out) :
    (finish builder node family below : Plan T N Tok (List Out)).run =
      Walk.finish builder node family below := by
  unfold finish Walk.finish
  cases node.label <;> cases family <;> rfl

/-- A setting makes of the plan the walk that it leads through. -/
theorem run_walk (f : Forest T N) (path : List NodeId) (id : NodeId) :
    (walk f tokens builder path id).run = Walk.walk f tokens builder path id := by
  fun_induction walk f tokens builder path id with
  | case1 path id hnode =>
      rw [Walk.walk_missing hnode]
      rfl
  | case2 path id node hnode t hlabel => rw [Walk.walk_leaf hnode hlabel, run_leaf]
  | case3 path id node hnode hpath hlabel => rw [Walk.walk_cycle hnode hlabel hpath]; rfl
  | case4 path id node hnode hpath hlabel ih =>
      -- The plan and the walk make the same choice and go through the same
      -- children.
      rw [Walk.walk_inner hnode hlabel hpath, run_bind, run_choose]
      refine congrArg (Walk.choose node.families >>= ·) (funext fun family => ?_)
      rw [run_bind]
      have hfinish : (fun below => (finish builder node family below).run) =
          Walk.finish builder node family :=
        funext fun below => run_finish builder node family below
      rw [hfinish]
      cases family with
      | epsilon => rfl
      | unary child => simp only [ih]
      | binary left right =>
          simp only [run_bind, ih]
          rfl

/-- The elements of a list are those at its positions. -/
theorem flatMap_range_getElem? {α : Type} (l : List α) :
    ((List.range l.length).flatMap fun i => l[i]?.toList) = l := by
  induction l with
  | nil => rfl
  | cons a rest ih =>
      simp only [List.length_cons, List.range_succ_eq_map, List.flatMap_cons, List.flatMap_map,
        List.getElem?_cons_zero, List.getElem?_cons_succ, Option.toList_some, ih,
        List.singleton_append]

theorem built_choose (families : List Family) :
    (choose families : Plan T N Tok Family).built = families := by
  match families with
  | [] => rfl
  | [only] => rfl
  | first :: second :: rest =>
      -- A way that can be taken builds the family at its position.
      have hway : ∀ taken : Nat, (match (first :: second :: rest)[taken]? with
          | none => halt .fault
          | some family => done family : Plan T N Tok Family).built =
            (first :: second :: rest)[taken]?.toList := by
        intro taken
        cases (first :: second :: rest)[taken]? <;> rfl
      simp only [choose, built_fork, hway]
      exact flatMap_range_getElem? (first :: second :: rest)

theorem built_leaf (terminal : T) (span : Span) : (leaf tokens builder terminal span).built =
    tokens[span.start]?.toList.map fun token => [builder.leaf terminal token span] := by
  unfold leaf
  cases tokens[span.start]? <;> rfl

theorem built_finish (node : Node T N) (family : Family) (below : List Out) :
    (finish builder node family below : Plan T N Tok (List Out)).built =
      [Enumeration.assemble builder node.label node.span family below] := by
  unfold finish Enumeration.assemble
  cases node.label <;> cases family <;> rfl

/-- The plan builds the derivations below the node, in the order of nested
    loops. -/
theorem built_walk (f : Forest T N) (path : List NodeId) (id : NodeId) :
    (walk f tokens builder path id).built = Enumeration.nested f tokens builder path id := by
  fun_induction walk f tokens builder path id with
  | case1 path id hnode =>
      rw [Enumeration.nested_missing hnode]
      rfl
  | case2 path id node hnode t hlabel =>
      rw [Enumeration.nested_leaf hnode hlabel, built_leaf]
  | case3 path id node hnode hpath hlabel =>
      rw [Enumeration.nested_cycle hnode hlabel hpath]
      rfl
  | case4 path id node hnode hpath hlabel ih =>
      -- The choice builds the families, and for each of them the children build
      -- what nested loops over them do.
      rw [Enumeration.nested_inner hnode hlabel hpath, built_bind, built_choose]
      refine congrArg node.families.flatMap (funext fun family => ?_)
      rw [built_bind, List.map_eq_flatMap]
      simp only [built_finish]
      refine congrArg (List.flatMap _) ?_
      cases family with
      | epsilon => rfl
      | unary child => exact ih child
      | binary left right =>
          simp only [built_bind, built_done, ih, Enumeration.nestedBelow, List.map_eq_flatMap]

end

section

variable {g : Grammar T N} {input : List T} {f : Forest T N} {tokens : List Tok}

theorem ends_choose {families : List Family} (h : families ≠ []) (allowed : Halt → Prop) :
    (choose families : Plan T N Tok Family).Ends (· ∈ families) allowed := by
  match families with
  | [] => exact absurd rfl h
  | [only] => exact ends_done (List.mem_singleton_self only)
  | first :: second :: rest =>
      refine ends_fork_iff.mpr fun taken htaken => ?_
      have hlt : taken < (first :: second :: rest).length := Nat.lt_succ_of_le htaken
      rw [List.getElem?_eq_getElem hlt]
      exact ends_done (List.getElem_mem hlt)

/-- In a sound forest, with a token for every position of the node's span, no
    walk fails, and one below a node that is no part of a rule's body makes
    one thing. -/
theorem ends_walk (hsound : f.Sound g input) (builder : Builder T N Tok Out)
    (path : List NodeId) {id : NodeId} {label : Label T N} {span : Span}
    (hhas : f.Has id label span) (htokens : span.stop ≤ tokens.length) :
    (walk f tokens builder path id).Ends
      (fun below => label.isIntermediate = false → below.length = 1) (· = .cycle) := by
  fun_induction walk f tokens builder path id generalizing label span with
  | case1 path id hnode =>
      exact absurd hnode hhas.node?_ne_none
  | case2 path id node hnode t hlabel =>
      rcases hhas.eq (Forest.has_of_node? hnode) with ⟨rfl, rfl⟩
      rw [hlabel] at hhas
      -- The position of a leaf is in its span, so there is a token for it.
      simp only [leaf, List.getElem?_eq_getElem (hsound.start_lt hhas htokens)]
      exact ends_note_iff.mpr (ends_done fun _ => rfl)
  | case3 => exact ends_halt rfl
  | case4 path id node hnode hpath hlabel ih =>
      rcases hhas.eq (Forest.has_of_node? hnode) with ⟨rfl, rfl⟩
      refine (ends_choose (hsound.families_ne_nil hnode hlabel) _).bind fun family hfamily => ?_
      have hway := hsound.way ⟨node.families, hnode, hfamily⟩
      -- The span of a child lies in that of the node, so it has its tokens too.
      have hchild : ∀ child ∈ family.children,
          (walk f tokens builder (id :: path) child).Ends (fun _ => True) (· = .cycle) := by
        intro child hchild
        rcases hsound.child hway hchild with ⟨label', span', hhas', _, hstop⟩
        exact (ih child hhas' (Nat.le_trans hstop htokens)).mono fun _ _ => trivial
      refine Ends.bind (?_ : Ends _ (fun _ => True) _) fun below _ => ?_
      · cases family with
        | epsilon => exact ends_done trivial
        | unary child => exact hchild child (List.mem_singleton_self child)
        | binary left right =>
            refine (hchild left List.mem_cons_self).bind fun before _ => ?_
            refine (hchild right (List.mem_cons_of_mem _ (List.mem_singleton_self right))).bind
              fun behind _ => ?_
            exact ends_done trivial
      · -- Only parts of a rule's body leave what is below them as it is.
        unfold finish
        cases hcase : node.label with
        | terminal t => exact absurd hcase (hlabel t)
        | nonterminal n => cases family <;> exact ends_note_iff.mpr (ends_done fun _ => rfl)
        | intermediate rule dot => exact ends_done fun hinner => by cases hinner

end

end Plan

end EarleyForest
