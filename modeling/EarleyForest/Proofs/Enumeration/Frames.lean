import EarleyForest.Proofs.Enumeration.Stack

/-!
# What Is on the Stack

The frame at the bottom of the stack of a walk is that of the root, until the
walk has come back. Every frame has its node of the forest, which is no leaf,
and has taken one of the families of that node. So if the root is no part of a
rule's body, a frame that is has another one below it to hand over to.

A step that stops short stops the whole walk, and for the same reason. So none
of the steps fails if the walk does not.

## Main definitions

* `Frame.Sits`: What holds of a frame on the stack.
* `Walk.Seated`: What holds of the stack.

## Theorems

* `seated_visit`, `seated_step`, `seated_steps`: It holds throughout a walk.
* `Seated.hands_over`: A part of a rule's body is not at the bottom.
* `error_of_steps`: Where a step stops short, the walk does.
-/

namespace EarleyForest

variable {T N Tok Out : Type}

/-- The frame has its node of the forest, which is no leaf, and one of the
    families of that node. -/
structure Frame.Sits (f : Forest T N) (frame : Frame T N Out) : Prop where
  node : f.node? frame.id = some frame.node
  family : frame.family ∈ frame.node.families
  inner (t : T) : frame.node.label ≠ .terminal t

namespace Walk

/-- The frame at the bottom is that of the root, and all frames sit right. -/
structure Seated (f : Forest T N) (root : NodeId) (stack : List (Frame T N Out)) : Prop where
  bottom : stack.getLast?.map Frame.id = some root
  sits {frame : Frame T N Out} : frame ∈ stack → frame.Sits f

section

variable {f : Forest T N} {tokens : List Tok} {builder : Builder T N Tok Out} {root : NodeId}
  {stack stack' : List (Frame T N Out)} {trail trail' : Trail T N Tok}

/-- A part of a rule's body is not at the bottom, unless it is the root. -/
theorem Seated.hands_over {node : Node T N} (hnode : f.node? root = some node)
    (hlabel : node.label.isIntermediate = false) {top : Frame T N Out}
    {rest : List (Frame T N Out)} (h : Seated f root (top :: rest))
    (htop : top.node.label.isIntermediate = true) : rest ≠ [] := by
  rintro rfl
  have hbottom : top.id = root := Option.some.inj h.bottom
  have htop' := (h.sits List.mem_cons_self).node
  rw [hbottom, hnode, Option.some.injEq] at htop'
  rw [← htop', hlabel] at htop
  cases htop

/-- How many children of a frame have been visited and what was made of them
    makes no difference. -/
theorem Seated.goes_on {top : Frame T N Out} {rest : List (Frame T N Out)}
    (h : Seated f root (top :: rest)) (slot : Nat) (below : List Out) :
    Seated f root ({ top with slot, below } :: rest) where
  bottom := by
    have hbottom := h.bottom
    cases rest with
    | nil => exact hbottom
    | cons next rest => rwa [List.getLast?_cons_cons] at hbottom ⊢
  sits {frame} hframe := by
    rcases List.mem_cons.mp hframe with rfl | hframe
    · exact ⟨(h.sits List.mem_cons_self).node, (h.sits List.mem_cons_self).family,
        (h.sits List.mem_cons_self).inner⟩
    · exact h.sits (List.mem_cons_of_mem _ hframe)

/-- A node above a seated stack is seated. -/
theorem Seated.push {frame : Frame T N Out} (hsits : frame.Sits f) (h : Seated f root stack) :
    Seated f root (frame :: stack) where
  bottom := by
    have hbottom := h.bottom
    cases stack with
    | nil => cases hbottom
    | cons top rest => rwa [List.getLast?_cons_cons]
  sits {other} hother := by
    rcases List.mem_cons.mp hother with rfl | hother
    · exact hsits
    · exact h.sits hother

/-- Below the frame on top of a seated stack all others are seated, if there
    are any. -/
theorem Seated.pop {top next : Frame T N Out} {rest : List (Frame T N Out)}
    (h : Seated f root (top :: next :: rest)) : Seated f root (next :: rest) where
  bottom := by
    have hbottom := h.bottom
    rwa [List.getLast?_cons_cons] at hbottom
  sits hframe := h.sits (List.mem_cons_of_mem _ hframe)

/-- A visit leaves the stack with all frames seated, if it was that before or
    if it is that of the root. -/
theorem seated_visit {id : NodeId} (hseated : stack = [] ∧ id = root ∨ Seated f root stack)
    (h : visit f tokens builder stack id trail = .ok (.busy stack') trail') :
    Seated f root stack' := by
  rcases busy_of_visit h with
    ⟨top, rest, outs, rfl, rfl⟩ | ⟨node, family, hnode, hlabel, hfamily, _, rfl⟩
  · -- There is no frame yet to which the root could be handed.
    rcases hseated with ⟨hnil, _⟩ | hseated
    · cases hnil
    · exact hseated.goes_on top.slot _
  · have hsits : Frame.Sits f (⟨id, node, family, 0, []⟩ : Frame T N Out) :=
      ⟨hnode, hfamily, hlabel⟩
    rcases hseated with ⟨rfl, rfl⟩ | hseated
    · refine ⟨rfl, fun hframe => ?_⟩
      rw [List.mem_singleton.mp hframe]
      exact hsits
    · exact hseated.push hsits

/-- A step leaves all frames seated. -/
theorem seated_step (hseated : Seated f root stack)
    (h : step f tokens builder stack trail = .ok (.busy stack') trail') :
    Seated f root stack' := by
  cases stack with
  | nil =>
      cases h
      exact hseated
  | cons top rest =>
      rcases busy_of_step h with ⟨child, _, hvisit⟩ | ⟨next, below, outs, _, rfl, rfl⟩
      · exact seated_visit (Or.inr (hseated.goes_on _ top.below)) hvisit
      · exact hseated.pop.goes_on next.slot _

/-- All frames are seated throughout a walk. -/
theorem seated_steps {n : Nat}
    (h : steps f tokens builder root n trail = .ok (.busy stack) trail') :
    Seated f root stack :=
  holds_steps (seated_visit (Or.inl ⟨rfl, rfl⟩)) seated_step h

theorem steps_add (m n : Nat) : steps f tokens builder root (m + n) =
    steps f tokens builder root m >>= stepFor f tokens builder n := by
  rw [steps, steps, bind_assoc]
  exact congrArg (visit f tokens builder [] root >>= ·) (funext (stepFor_add m n))

/-- Where a step stops short, the walk does, and for the same reason. -/
theorem error_of_steps {n : Nat} {reason : Halt}
    (h : steps f tokens builder root n trail = .error reason trail') :
    whole f tokens builder root trail = .error reason trail' := by
  rcases exists_steps f tokens builder root trail with ⟨m, hm⟩
  rcases Nat.le_total n m with hle | hle
  · -- The steps that are left do not come to their turn.
    rcases Nat.exists_eq_add_of_le hle with ⟨k, rfl⟩
    rw [← hm, steps_add]
    simp only [Bind.bind, EStateM.bind, h]
  · -- The walk is over by then. It has not come back, as nothing stops short
    -- after that.
    rcases Nat.exists_eq_add_of_le hle with ⟨k, rfl⟩
    rw [steps_add] at h
    simp only [Bind.bind, EStateM.bind, hm] at h
    cases hwalk : walk f tokens builder [] root trail with
    | ok outs behind =>
        simp only [whole, Bind.bind, EStateM.bind, hwalk, pure, EStateM.pure] at h
        rw [stepFor_done] at h
        cases h
    | error halt behind =>
        simp only [whole, Bind.bind, EStateM.bind, hwalk] at h ⊢
        exact h

end

end Walk

end EarleyForest
