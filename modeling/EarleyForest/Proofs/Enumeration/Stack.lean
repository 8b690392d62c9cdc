import EarleyForest.Proofs.Enumeration.Survey

/-!
# Walking with a Stack

The walk below a node goes down into the children and comes back with what was
made there. The same can be done one step at a time, with a stack that has a
frame for each node on the way down: the family taken, the children visited,
and what was made so far. A step visits the next child of the node on top, or
takes the node off if there is none left.

Some number of steps comes to the same as the walk, whatever the setting. In
none of them a node is on the stack twice.

## Main definitions

* `Frame`: A node on the way down.
* `Progress`: How far a walk has come.
* `Walk.visit`, `Walk.step`: One step.
* `Walk.stepFor`, `Walk.steps`: A number of steps, and those below a root.
* `Walk.whole`: The walk below a root, all at once.
* `Walk.Becomes`: Some number of steps comes to the same as a walk.

## Theorems

* `becomes_walk`, `exists_steps`: The steps come to the same as the walk.
* `busy_of_visit`, `busy_of_step`: All that a step does to the stack.
* `holds_steps`: What each step keeps holds throughout a walk.
* `nodup_step`, `nodup_steps`: No node is on the stack twice.
-/

namespace EarleyForest

/-- A node on the way down. -/
structure Frame (T N Out : Type) where
  id : NodeId
  node : Node T N
  /-- The family taken. -/
  family : Family
  /-- The number of children visited. -/
  slot : Nat
  /-- What was made below so far. -/
  below : List Out

/-- How far a walk has come. -/
inductive Progress (T N Out : Type) where
  /-- There are nodes on the way down, the last one first. -/
  | busy (stack : List (Frame T N Out))
  /-- The walk has come back with what it has made. -/
  | done (outs : List Out)

namespace Walk

variable {T N Tok Out : Type}

/-- Hands what was made of a node to the frame above it, if there is one. -/
def hand (stack : List (Frame T N Out)) (outs : List Out) : Progress T N Out :=
  match stack with
  | [] => .done outs
  | top :: rest => .busy ({ top with below := top.below ++ outs } :: rest)

/-- Visits a node: a leaf is made at once, and any other node that is not on
    the stack is put there. -/
def visit (f : Forest T N) (tokens : List Tok) (builder : Builder T N Tok Out)
    (stack : List (Frame T N Out)) (id : NodeId) : Walk T N Tok (Progress T N Out) :=
  match f.node? id with
  | none => throw .fault
  | some node =>
    match node.label with
    | .terminal t => do
      let outs ← leaf tokens builder t node.span
      pure (hand stack outs)
    | _ =>
      if id ∈ stack.map Frame.id then throw .cycle
      else do
        let family ← choose node.families
        pure (.busy (⟨id, node, family, 0, []⟩ :: stack))

/-- Visits the next child of the node on top, or takes that node off and hands
    over what it stands for. -/
def step (f : Forest T N) (tokens : List Tok) (builder : Builder T N Tok Out) :
    List (Frame T N Out) → Walk T N Tok (Progress T N Out)
  | [] => pure (.busy [])
  | top :: rest =>
    match top.family.child? top.slot with
    | some child => visit f tokens builder ({ top with slot := top.slot + 1 } :: rest) child
    | none => do
      let outs ← finish builder top.node top.family top.below
      pure (hand rest outs)

/-- Goes on by a number of steps, or until the walk has come back. -/
def stepFor (f : Forest T N) (tokens : List Tok) (builder : Builder T N Tok Out) :
    Nat → Progress T N Out → Walk T N Tok (Progress T N Out)
  | n + 1, .busy stack => do
    let progress ← step f tokens builder stack
    stepFor f tokens builder n progress
  | _, progress => pure progress

/-- A number of steps below a root, behind the visit of the root itself. -/
def steps (f : Forest T N) (tokens : List Tok) (builder : Builder T N Tok Out) (root : NodeId)
    (n : Nat) : Walk T N Tok (Progress T N Out) := do
  let progress ← visit f tokens builder [] root
  stepFor f tokens builder n progress

/-- The whole walk below a root. -/
def whole (f : Forest T N) (tokens : List Tok) (builder : Builder T N Tok Out) (root : NodeId) :
    Walk T N Tok (Progress T N Out) := do
  let outs ← walk f tokens builder [] root
  pure (.done outs)

section

variable {f : Forest T N} {tokens : List Tok} {builder : Builder T N Tok Out}

theorem stepFor_zero : stepFor f tokens builder 0 = pure :=
  funext fun progress => by cases progress <;> rfl

theorem stepFor_done (n : Nat) (outs : List Out) :
    stepFor f tokens builder n (.done outs) = pure (.done outs) := by
  cases n <;> rfl

theorem stepFor_add (m n : Nat) (progress : Progress T N Out) :
    stepFor f tokens builder (m + n) progress =
      stepFor f tokens builder m progress >>= stepFor f tokens builder n := by
  induction m generalizing progress with
  | zero => rw [Nat.zero_add, stepFor_zero, pure_bind]
  | succ m ih =>
      cases progress with
      | done outs => rw [stepFor_done, stepFor_done, pure_bind, stepFor_done]
      | busy stack =>
          rw [Nat.add_right_comm, stepFor, stepFor, bind_assoc]
          exact congrArg (step f tokens builder stack >>= ·) (funext ih)

/-- Whatever the trail, some number of steps behind the first part of a walk
    comes to the same as the second. -/
def Becomes (f : Forest T N) (tokens : List Tok) (builder : Builder T N Tok Out)
    (part result : Walk T N Tok (Progress T N Out)) : Prop :=
  ∀ trail, ∃ n, (part >>= stepFor f tokens builder n) trail = result trail

theorem becomes_refl (part : Walk T N Tok (Progress T N Out)) :
    Becomes f tokens builder part part := by
  refine fun trail => ⟨0, ?_⟩
  rw [stepFor_zero, bind_pure]

theorem Becomes.trans {part middle result : Walk T N Tok (Progress T N Out)}
    (h : Becomes f tokens builder part middle) (h' : Becomes f tokens builder middle result) :
    Becomes f tokens builder part result := by
  intro trail
  rcases h trail with ⟨m, hm⟩
  rcases h' trail with ⟨n, hn⟩
  refine ⟨m + n, ?_⟩
  have hadd : stepFor f tokens builder (m + n) = fun progress =>
      stepFor f tokens builder m progress >>= stepFor f tokens builder n :=
    funext (stepFor_add m n)
  rw [← hn, hadd, ← bind_assoc]
  -- The steps behind the first part leave the result and the trail of the
  -- second.
  simp only [Bind.bind, EStateM.bind] at hm ⊢
  rw [hm]

/-- Parts of a walk that begin in the same way are compared from there on. -/
theorem Becomes.bind {α : Type} (first : Walk T N Tok α)
    {next result : α → Walk T N Tok (Progress T N Out)}
    (h : ∀ a, Becomes f tokens builder (next a) (result a)) :
    Becomes f tokens builder (first >>= next) (first >>= result) := by
  intro trail
  simp only [bind_assoc]
  simp only [Bind.bind, EStateM.bind]
  cases first trail with
  | error halt behind => exact ⟨0, rfl⟩
  | ok a behind => exact h a behind

theorem becomes_step (stack : List (Frame T N Out)) :
    Becomes f tokens builder (pure (.busy stack)) (step f tokens builder stack) := by
  refine fun trail => ⟨1, ?_⟩
  rw [pure_bind, stepFor, stepFor_zero, bind_pure]

/-- If the walk below each child comes to what its visit becomes, then a node
    whose family is taken comes to what is made of its children. -/
theorem becomes_family {stack : List (Frame T N Out)} {id : NodeId} (node : Node T N)
    (family : Family)
    (h : ∀ child (top : Frame T N Out), top.id = id → Becomes f tokens builder
      (visit f tokens builder (top :: stack) child)
      (walk f tokens builder (id :: stack.map Frame.id) child >>= fun outs =>
        pure (hand (top :: stack) outs))) :
    Becomes f tokens builder (pure (.busy (⟨id, node, family, 0, []⟩ :: stack)))
      (((match family with
        | .epsilon => pure []
        | .unary child => walk f tokens builder (id :: stack.map Frame.id) child
        | .binary left right => do
          let before ← walk f tokens builder (id :: stack.map Frame.id) left
          let behind ← walk f tokens builder (id :: stack.map Frame.id) right
          pure (before ++ behind)) >>= finish builder node family) >>= fun outs =>
        pure (hand stack outs)) := by
  cases family with
  | epsilon =>
      -- There is no child to visit.
      rw [pure_bind]
      exact becomes_step _
  | unary child =>
      -- One step visits the child, and one takes the node off.
      refine (becomes_step _).trans ?_
      refine (h child ⟨id, node, .unary child, 1, []⟩ rfl).trans ?_
      rw [bind_assoc]
      exact Becomes.bind _ fun outs => becomes_step _
  | binary left right =>
      refine (becomes_step _).trans ?_
      refine (h left ⟨id, node, .binary left right, 1, []⟩ rfl).trans ?_
      simp only [bind_assoc, pure_bind]
      refine Becomes.bind _ fun before => ?_
      refine (becomes_step _).trans ?_
      refine (h right ⟨id, node, .binary left right, 2, before⟩ rfl).trans ?_
      exact Becomes.bind _ fun behind => becomes_step _

theorem visit_cycle {stack : List (Frame T N Out)} {id : NodeId} {node : Node T N}
    (hnode : f.node? id = some node) (hlabel : ∀ t, node.label ≠ .terminal t)
    (hmem : id ∈ stack.map Frame.id) : visit f tokens builder stack id = throw .cycle := by
  simp only [visit, hnode]
  cases hcase : node.label with
  | terminal t => exact absurd hcase (hlabel t)
  | nonterminal n => exact if_pos hmem
  | intermediate rule dot => exact if_pos hmem

theorem visit_inner {stack : List (Frame T N Out)} {id : NodeId} {node : Node T N}
    (hnode : f.node? id = some node) (hlabel : ∀ t, node.label ≠ .terminal t)
    (hmem : id ∉ stack.map Frame.id) : visit f tokens builder stack id =
      choose node.families >>= fun family =>
        pure (.busy (⟨id, node, family, 0, []⟩ :: stack)) := by
  simp only [visit, hnode]
  cases hcase : node.label with
  | terminal t => exact absurd hcase (hlabel t)
  | nonterminal n => exact if_neg hmem
  | intermediate rule dot => exact if_neg hmem

/-- To visit a node and go on comes to the same as the walk below the node. -/
theorem becomes_walk (f : Forest T N) (tokens : List Tok) (builder : Builder T N Tok Out)
    (stack : List (Frame T N Out)) (id : NodeId) :
    Becomes f tokens builder (visit f tokens builder stack id)
      (walk f tokens builder (stack.map Frame.id) id >>= fun outs => pure (hand stack outs)) := by
  -- By induction along the walk, whose path has the nodes of the stack.
  generalize hpath : stack.map Frame.id = path
  fun_induction walk f tokens builder path id generalizing stack with
  | case1 path id hnode =>
      simp only [visit, hnode]
      exact becomes_refl _
  | case2 path id node hnode t hlabel =>
      simp only [visit, hnode, hlabel]
      exact becomes_refl _
  | case3 path id node hnode hmem hlabel =>
      subst hpath
      rw [visit_cycle hnode hlabel hmem]
      exact becomes_refl _
  | case4 path id node hnode hmem hlabel ih =>
      subst hpath
      rw [visit_inner hnode hlabel hmem, bind_assoc]
      refine Becomes.bind _ fun family => becomes_family node family fun child top htop => ?_
      exact ih child (top :: stack) (by rw [List.map_cons, htop])

/-- What one part of a walk after another gives has been given by the
    second. -/
theorem ok_of_bind {α β : Type} {part : Walk T N Tok α} {next : α → Walk T N Tok β}
    {trail trail'' : Trail T N Tok} {b : β} (h : (part >>= next) trail = .ok b trail'') :
    ∃ a trail', part trail = .ok a trail' ∧ next a trail' = .ok b trail'' := by
  simp only [Bind.bind, EStateM.bind] at h
  cases hpart : part trail with
  | error halt behind =>
      rw [hpart] at h
      cases h
  | ok a behind =>
      rw [hpart] at h
      exact ⟨a, behind, rfl, h⟩

theorem mem_of_choose {families : List Family} {family : Family} {trail trail' : Trail T N Tok}
    (h : choose families trail = .ok family trail') : family ∈ families := by
  match families with
  | [] => cases h
  | [single] =>
      cases h
      exact List.mem_singleton_self family
  | first :: second :: rest =>
      rcases ok_of_bind h with ⟨taken, behind, _, h⟩
      cases hfamily : (first :: second :: rest)[taken]? with
      | none =>
          rw [hfamily] at h
          cases h
      | some taken =>
          rw [hfamily] at h
          cases h
          exact List.mem_of_getElem? hfamily

section

variable {stack stack' rest : List (Frame T N Out)} {top : Frame T N Out} {id : NodeId}
  {trail trail' : Trail T N Tok}

/-- Behind what is handed over there is a frame only if one was there before,
    and it has more below it. -/
theorem busy_of_hand {outs : List Out} (h : hand stack outs = .busy stack') :
    ∃ top rest, stack = top :: rest ∧
      stack' = { top with below := top.below ++ outs } :: rest := by
  cases stack with
  | nil => cases h
  | cons top rest =>
      cases h
      exact ⟨top, rest, rfl, rfl⟩

/-- All that a visit does to a stack: a leaf is handed to the frame on top, and
    any other node is put above it, which was not on the stack before, with one
    of its families. -/
theorem busy_of_visit (h : visit f tokens builder stack id trail = .ok (.busy stack') trail') :
    (∃ top rest outs, stack = top :: rest ∧
        stack' = { top with below := top.below ++ outs } :: rest) ∨
      ∃ node family, f.node? id = some node ∧ (∀ t, node.label ≠ .terminal t) ∧
        family ∈ node.families ∧ id ∉ stack.map Frame.id ∧
        stack' = ⟨id, node, family, 0, []⟩ :: stack := by
  cases hnode : f.node? id with
  | none =>
      simp only [visit, hnode] at h
      cases h
  | some node =>
      by_cases hleaf : ∃ t, node.label = .terminal t
      · rcases hleaf with ⟨t, ht⟩
        simp only [visit, hnode, ht] at h
        rcases ok_of_bind h with ⟨outs, behind, _, h⟩
        rcases busy_of_hand (EStateM.Result.ok.inj h).1 with ⟨top, rest, hstack, hstack'⟩
        exact Or.inl ⟨top, rest, outs, hstack, hstack'⟩
      · have hlabel : ∀ t, node.label ≠ .terminal t := fun t ht => hleaf ⟨t, ht⟩
        by_cases hmem : id ∈ stack.map Frame.id
        · rw [visit_cycle hnode hlabel hmem] at h
          cases h
        · rw [visit_inner hnode hlabel hmem] at h
          rcases ok_of_bind h with ⟨family, behind, hfamily, h⟩
          cases h
          exact Or.inr ⟨node, family, rfl, hlabel, mem_of_choose hfamily, hmem, rfl⟩

/-- All that a step does to a stack: it visits the next child of the frame on
    top, or it takes that frame off and hands over to the one below. -/
theorem busy_of_step
    (h : step f tokens builder (top :: rest) trail = .ok (.busy stack') trail') :
    (∃ child, top.family.child? top.slot = some child ∧
        visit f tokens builder ({ top with slot := top.slot + 1 } :: rest) child trail =
          .ok (.busy stack') trail') ∨
      ∃ next below outs, top.family.child? top.slot = none ∧ rest = next :: below ∧
        stack' = { next with below := next.below ++ outs } :: below := by
  cases hchild : top.family.child? top.slot with
  | some child =>
      simp only [step, hchild] at h
      exact Or.inl ⟨child, rfl, h⟩
  | none =>
      simp only [step, hchild] at h
      rcases ok_of_bind h with ⟨outs, behind, _, h⟩
      rcases busy_of_hand (EStateM.Result.ok.inj h).1 with ⟨next, below, hrest, hstack'⟩
      exact Or.inr ⟨next, below, outs, rfl, hrest, hstack'⟩

/-- A visit puts no node on the stack that is there already. -/
theorem nodup_visit (hnodup : (stack.map Frame.id).Nodup)
    (h : visit f tokens builder stack id trail = .ok (.busy stack') trail') :
    (stack'.map Frame.id).Nodup := by
  rcases busy_of_visit h with ⟨top, rest, outs, rfl, rfl⟩ | ⟨node, family, _, _, _, hmem, rfl⟩
  · exact hnodup
  · exact List.nodup_cons.mpr ⟨hmem, hnodup⟩

/-- A step does not put a node on the stack twice. -/
theorem nodup_step (hnodup : (stack.map Frame.id).Nodup)
    (h : step f tokens builder stack trail = .ok (.busy stack') trail') :
    (stack'.map Frame.id).Nodup := by
  cases stack with
  | nil =>
      cases h
      exact hnodup
  | cons top rest =>
      rcases busy_of_step h with ⟨child, _, hvisit⟩ | ⟨next, below, outs, _, rfl, rfl⟩
      · refine nodup_visit ?_ hvisit
        exact hnodup
      · exact (List.nodup_cons.mp hnodup).2

end

/-- What holds of a stack and is kept by a step holds after any number of
    steps. -/
theorem holds_stepFor {inv : List (Frame T N Out) → Prop}
    (hstep : ∀ {stack stack' : List (Frame T N Out)} {trail trail' : Trail T N Tok}, inv stack →
      step f tokens builder stack trail = .ok (.busy stack') trail' → inv stack')
    {n : Nat} {stack stack' : List (Frame T N Out)} {trail trail' : Trail T N Tok}
    (hinv : inv stack)
    (h : stepFor f tokens builder n (.busy stack) trail = .ok (.busy stack') trail') :
    inv stack' := by
  induction n generalizing stack trail with
  | zero =>
      cases h
      exact hinv
  | succ n ih =>
      rcases ok_of_bind h with ⟨progress, behind, hfirst, h⟩
      cases progress with
      | busy stack'' => exact ih (hstep hinv hfirst) h
      | done outs =>
          rw [stepFor_done] at h
          cases h

/-- What holds when the root has been visited and is kept by a step holds
    throughout a walk. -/
theorem holds_steps {inv : List (Frame T N Out) → Prop} {root : NodeId}
    (hvisit : ∀ {stack : List (Frame T N Out)} {trail trail' : Trail T N Tok},
      visit f tokens builder [] root trail = .ok (.busy stack) trail' → inv stack)
    (hstep : ∀ {stack stack' : List (Frame T N Out)} {trail trail' : Trail T N Tok}, inv stack →
      step f tokens builder stack trail = .ok (.busy stack') trail' → inv stack')
    {n : Nat} {stack : List (Frame T N Out)} {trail trail' : Trail T N Tok}
    (h : steps f tokens builder root n trail = .ok (.busy stack) trail') : inv stack := by
  rcases ok_of_bind h with ⟨progress, behind, hfirst, h⟩
  cases progress with
  | busy stack' => exact holds_stepFor hstep (hvisit hfirst) h
  | done outs =>
      rw [stepFor_done] at h
      cases h

/-- The steps below a root come to an end, and to the same as the walk. -/
theorem exists_steps (f : Forest T N) (tokens : List Tok) (builder : Builder T N Tok Out)
    (root : NodeId) (trail : Trail T N Tok) :
    ∃ n, steps f tokens builder root n trail = whole f tokens builder root trail :=
  becomes_walk f tokens builder [] root trail

/-- On the way no node is on the stack twice. -/
theorem nodup_steps {root : NodeId} {n : Nat} {stack : List (Frame T N Out)}
    {trail trail' : Trail T N Tok}
    (h : steps f tokens builder root n trail = .ok (.busy stack) trail') :
    (stack.map Frame.id).Nodup :=
  holds_steps (nodup_visit List.nodup_nil) nodup_step h

end

end Walk

end EarleyForest
