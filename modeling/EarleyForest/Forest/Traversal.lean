import EarleyForest.Forest.Basic

/-!
# Walks over Forests

Forests may have cycles, so a walk has to remember where it has been. It ends
because each step either visits a node for the first time, which leaves fewer
nodes unvisited, or makes no visit and has less to do than before.

## Main definitions

* `Forest.unvisited`: The number of nodes not visited yet.
* `Forest.preorder`: The nodes below a root, each once and before its
  children.

## Theorems

* `unvisited_cons_lt`: A first visit leaves fewer nodes unvisited.
* `preorderFrom_of_mem`, `preorderFrom_of_node?`, `preorderFrom_of_unknown`:
  The steps of the walk.
-/

namespace EarleyForest

namespace Forest

variable {T N : Type}

/-- The number of nodes that are not among those visited. -/
def unvisited (f : Forest T N) (visited : List NodeId) : Nat :=
  (List.range f.size).countP fun id => id ∉ visited

theorem lt_size_of_node? {f : Forest T N} {id : NodeId} {node : Node T N}
    (h : f.node? id = some node) : id < f.size :=
  (Array.getElem?_eq_some_iff.mp h).1

theorem countP_cons_le (visited : List NodeId) (id : NodeId) (l : List NodeId) :
    l.countP (fun i => i ∉ id :: visited) ≤ l.countP (fun i => i ∉ visited) := by
  refine List.countP_mono_left fun i _ hi => ?_
  simp only [List.mem_cons, not_or, decide_eq_true_eq] at hi ⊢
  exact hi.2

theorem countP_cons_lt (visited : List NodeId) (id : NodeId) (hid : id ∉ visited)
    (l : List NodeId) (h : id ∈ l) :
    l.countP (fun i => i ∉ id :: visited) < l.countP (fun i => i ∉ visited) := by
  induction l with
  | nil => exact absurd h List.not_mem_nil
  | cons head rest ih =>
      by_cases hhead : head = id
      · -- The node itself: it counted before and does not any more.
        have hrest := countP_cons_le visited id rest
        rw [List.countP_cons_of_neg, List.countP_cons_of_pos]
        · omega
        · exact decide_eq_true (hhead ▸ hid)
        · simp only [hhead, List.mem_cons, true_or, not_true_eq_false, decide_false,
            Bool.false_eq_true, not_false_eq_true]
      · -- Another node counts as it did before.
        have hrest := ih ((List.mem_cons.mp h).resolve_left fun he => hhead he.symm)
        have hsame : decide (head ∉ id :: visited) = decide (head ∉ visited) := by
          simp only [List.mem_cons, hhead, false_or]
        simp only [List.countP_cons, hsame]
        omega

/-- A first visit leaves fewer nodes unvisited. -/
theorem unvisited_cons_lt {f : Forest T N} {id : NodeId} {node : Node T N}
    {visited : List NodeId} (h : f.node? id = some node) (hid : id ∉ visited) :
    f.unvisited (id :: visited) < f.unvisited visited :=
  countP_cons_lt visited id hid _ (List.mem_range.mpr (lt_size_of_node? h))

/-- The nodes below pending ones that have not been seen, the first pending
    node being visited next. -/
def preorderFrom (f : Forest T N) (seen : List NodeId) :
    List NodeId → List (NodeId × Node T N)
  | [] => []
  | id :: pending =>
    if _hid : id ∈ seen then preorderFrom f seen pending
    else
      match _hnode : f.node? id with
      | none => preorderFrom f seen pending
      | some node => (id, node) :: preorderFrom f (id :: seen) (node.children ++ pending)
termination_by pending => (f.unvisited seen, pending.length)
decreasing_by
  -- Either a pending node is dropped or a new node is visited.
  · exact Prod.Lex.right _ (Nat.lt_succ_self _)
  · exact Prod.Lex.right _ (Nat.lt_succ_self _)
  · exact Prod.Lex.left _ _ (unvisited_cons_lt _hnode _hid)

section

variable {f : Forest T N} {seen : List NodeId} {id : NodeId} {pending : List NodeId}

theorem preorderFrom_of_mem (hid : id ∈ seen) :
    f.preorderFrom seen (id :: pending) = f.preorderFrom seen pending := by
  rw [preorderFrom, dif_pos hid]

/-- A new node is visited, and its children before those that are pending. -/
theorem preorderFrom_of_node? {node : Node T N} (hid : id ∉ seen)
    (hnode : f.node? id = some node) : f.preorderFrom seen (id :: pending) =
      (id, node) :: f.preorderFrom (id :: seen) (node.children ++ pending) := by
  rw [preorderFrom, dif_neg hid]
  split
  · rename_i hnone
    cases hnone.symm.trans hnode
  · rename_i node' hnode'
    cases hnode'.symm.trans hnode
    rfl

theorem preorderFrom_of_unknown (hnode : f.node? id = none) :
    f.preorderFrom seen (id :: pending) = f.preorderFrom seen pending := by
  by_cases hid : id ∈ seen
  · exact preorderFrom_of_mem hid
  · rw [preorderFrom, dif_neg hid]
    split
    · rfl
    · rename_i node hsome
      cases hsome.symm.trans hnode

end

/-- The nodes below a root, the root included, in the order in which a walk
    first meets them that goes down before it goes on to the right. -/
def preorder (f : Forest T N) (root : NodeId) : List (NodeId × Node T N) :=
  f.preorderFrom [] [root]

end Forest

end EarleyForest
