import Mathlib.Logic.Relation
import EarleyForest.Forest.Traversal
import EarleyForest.Proofs.Enumeration.Cycles

/-!
# The Order of a Walk

A forest is listed by a walk that keeps the nodes still to be visited in one
list. What it lists is said most easily of a recursion instead: to visit a node
is to visit its children one after the other, and a node visited before is left
out. The recursion hands on the nodes visited so far, so that a node met both
through an early parent and further down counts where it is met first.

Both agree because the walk marks a node when it takes it off the list and not
when it puts it there. All that stands before the pending nodes is what the
recursion has still to do below the node at hand; the pending nodes do not
matter until that is done.

A node that has been visited has had its children visited in the end. So the
nodes visited are those that are reached.

## Main definitions

* `Forest.visitAll`: Visits nodes and those below them by recursion.
* `Forest.depthFirst`: The nodes below a root in the order of first visits.

## Theorems

* `preorderFrom_append`: The walk does what the recursion does, and goes on.
* `map_fst_preorder`: The walk lists nodes in the order of first visits.
* `nodup_depthFirst`: No node is visited twice.
* `mem_depthFirst_iff`, `mem_preorder_iff`: The nodes visited are those that
  are reached.
-/

namespace EarleyForest

namespace Forest

variable {T N : Type}

/-- More visits leave no more nodes unvisited. -/
theorem unvisited_le {f : Forest T N} {visited after : List NodeId} (h : visited <:+ after) :
    f.unvisited after ≤ f.unvisited visited := by
  refine List.countP_mono_left fun id _ hid => ?_
  rw [decide_eq_true_eq] at hid ⊢
  exact fun hmem => hid (h.mem hmem)

/-- Visits nodes one after the other, each before its children and with its
    children before the next one, and leaves out the nodes visited before.
    `visited` holds those, the latest first, and so does the result. -/
def visitAll (f : Forest T N) (visited : List NodeId) :
    List NodeId → { after : List NodeId // visited <:+ after }
  | [] => ⟨visited, List.suffix_refl visited⟩
  | id :: rest =>
    if _hid : id ∈ visited then visitAll f visited rest
    else
      match _hnode : f.node? id with
      | none => visitAll f visited rest
      | some node =>
        let below := visitAll f (id :: visited) node.children
        let behind := visitAll f below.1 rest
        ⟨behind.1, ((List.suffix_cons id visited).trans below.2).trans behind.2⟩
termination_by ids => (f.unvisited visited, ids.length)
decreasing_by
  -- Either a node is left out or one is visited for the first time.
  · exact Prod.Lex.right _ (Nat.lt_succ_self _)
  · exact Prod.Lex.right _ (Nat.lt_succ_self _)
  · exact Prod.Lex.left _ _ (unvisited_cons_lt _hnode _hid)
  · exact Prod.Lex.left _ _
      (Nat.lt_of_le_of_lt (unvisited_le below.2) (unvisited_cons_lt _hnode _hid))

section

variable {f : Forest T N} {visited : List NodeId} {id : NodeId} {rest : List NodeId}

theorem visitAll_nil : (f.visitAll visited []).1 = visited := by
  rw [visitAll]

theorem visitAll_of_mem (hid : id ∈ visited) :
    (f.visitAll visited (id :: rest)).1 = (f.visitAll visited rest).1 := by
  rw [visitAll, dif_pos hid]

theorem visitAll_of_node? {node : Node T N} (hid : id ∉ visited) (hnode : f.node? id = some node) :
    (f.visitAll visited (id :: rest)).1 =
      (f.visitAll (f.visitAll (id :: visited) node.children).1 rest).1 := by
  rw [visitAll, dif_neg hid]
  split
  · rename_i hnone
    cases hnone.symm.trans hnode
  · rename_i node' hnode'
    cases hnode'.symm.trans hnode
    rfl

theorem visitAll_of_unknown (hnode : f.node? id = none) :
    (f.visitAll visited (id :: rest)).1 = (f.visitAll visited rest).1 := by
  by_cases hid : id ∈ visited
  · exact visitAll_of_mem hid
  · rw [visitAll, dif_neg hid]
    split
    · rfl
    · rename_i node hsome
      cases hsome.symm.trans hnode

end

variable {f : Forest T N}

/-- The walk lists below some nodes what the recursion visits there, and then
    goes on with the nodes that are pending behind them. -/
theorem preorderFrom_append (f : Forest T N) (visited ids : List NodeId) :
    ∃ met : List (NodeId × Node T N), (∀ entry ∈ met, f.node? entry.1 = some entry.2) ∧
      (f.visitAll visited ids).1 = (met.map Prod.fst).reverse ++ visited ∧
      ∀ pending, f.preorderFrom visited (ids ++ pending) =
        met ++ f.preorderFrom (f.visitAll visited ids).1 pending := by
  induction visited, ids using visitAll.induct f with
  | case1 visited =>
      refine ⟨[], fun _ h => absurd h List.not_mem_nil, visitAll_nil, fun pending => ?_⟩
      rw [visitAll_nil]
      rfl
  | case2 visited id rest hid ih =>
      rcases ih with ⟨met, hnodes, hafter, hwalk⟩
      refine ⟨met, hnodes, (visitAll_of_mem hid).trans hafter, fun pending => ?_⟩
      rw [List.cons_append, preorderFrom_of_mem hid, visitAll_of_mem hid]
      exact hwalk pending
  | case3 visited id rest hid hnone ih =>
      rcases ih with ⟨met, hnodes, hafter, hwalk⟩
      refine ⟨met, hnodes, (visitAll_of_unknown hnone).trans hafter, fun pending => ?_⟩
      rw [List.cons_append, preorderFrom_of_unknown hnone, visitAll_of_unknown hnone]
      exact hwalk pending
  | case4 visited id rest hid node hnode below ihBelow _ ihBehind =>
      rcases ihBelow with ⟨metBelow, hnodes, hafter, hwalk⟩
      rcases ihBehind with ⟨metBehind, hnodes', hafter', hwalk'⟩
      refine ⟨(id, node) :: (metBelow ++ metBehind), ?_, ?_, fun pending => ?_⟩
      · intro entry hentry
        rcases List.mem_cons.mp hentry with rfl | hentry
        · exact hnode
        · exact (List.mem_append.mp hentry).elim (hnodes entry) (hnodes' entry)
      · rw [visitAll_of_node? hid hnode, hafter', hafter, List.map_cons, List.map_append,
          List.reverse_cons, List.reverse_append, List.append_assoc, List.append_assoc]
        rfl
      · rw [List.cons_append, preorderFrom_of_node? hid hnode, visitAll_of_node? hid hnode,
          hwalk (rest ++ pending), hwalk' pending, List.cons_append, List.append_assoc]

/-- A node visited has been visited before or is reached from one of those to be
    visited. -/
theorem reached_of_mem_visitAll {visited ids : List NodeId} {id' : NodeId}
    (h : id' ∈ (f.visitAll visited ids).1) :
    id' ∈ visited ∨ ∃ start ∈ ids, Relation.ReflTransGen f.Child id' start := by
  induction visited, ids using visitAll.induct f with
  | case1 visited =>
      rw [visitAll_nil] at h
      exact Or.inl h
  | case2 visited id rest hid ih =>
      rw [visitAll_of_mem hid] at h
      rcases ih h with hvisited | ⟨start, hstart, hreach⟩
      · exact Or.inl hvisited
      · exact Or.inr ⟨start, List.mem_cons_of_mem _ hstart, hreach⟩
  | case3 visited id rest hid hnone ih =>
      rw [visitAll_of_unknown hnone] at h
      rcases ih h with hvisited | ⟨start, hstart, hreach⟩
      · exact Or.inl hvisited
      · exact Or.inr ⟨start, List.mem_cons_of_mem _ hstart, hreach⟩
  | case4 visited id rest hid node hnode below ihBelow _ ihBehind =>
      rw [visitAll_of_node? hid hnode] at h
      rcases ihBehind h with hbelow | ⟨start, hstart, hreach⟩
      · rcases ihBelow hbelow with hvisited | ⟨child, hchild, hreach⟩
        · rcases List.mem_cons.mp hvisited with rfl | hvisited
          · exact Or.inr ⟨id', List.mem_cons_self, .refl⟩
          · exact Or.inl hvisited
        · exact Or.inr ⟨id, List.mem_cons_self, hreach.tail ⟨node, hnode, hchild⟩⟩
      · exact Or.inr ⟨start, List.mem_cons_of_mem _ hstart, hreach⟩

/-- The nodes to be visited are visited in the end, and so are the children of
    each node that is visited on the way. -/
theorem visitAll_closed (hvalid : ∀ below above, f.Child below above →
    ∃ node, f.node? below = some node) {visited ids : List NodeId}
    (hids : ∀ id ∈ ids, ∃ node, f.node? id = some node) :
    (∀ id ∈ ids, id ∈ (f.visitAll visited ids).1) ∧
      ∀ above ∈ (f.visitAll visited ids).1, above ∉ visited →
        ∀ below, f.Child below above → below ∈ (f.visitAll visited ids).1 := by
  induction visited, ids using visitAll.induct f with
  | case1 visited =>
      rw [visitAll_nil]
      exact ⟨fun _ h => absurd h List.not_mem_nil, fun above h hnew => absurd h hnew⟩
  | case2 visited id rest hid ih =>
      rcases List.forall_mem_cons.mp hids with ⟨_, hrest⟩
      rcases ih hrest with ⟨hstarts, hclosed⟩
      rw [visitAll_of_mem hid]
      exact ⟨List.forall_mem_cons.mpr ⟨(f.visitAll visited rest).2.mem hid, hstarts⟩, hclosed⟩
  | case3 visited id rest hid hnone ih =>
      rcases hids id List.mem_cons_self with ⟨node, hnode⟩
      cases hnone.symm.trans hnode
  | case4 visited id rest hid node hnode below ihBelow _ ihBehind =>
      rcases List.forall_mem_cons.mp hids with ⟨_, hrest⟩
      rcases ihBelow fun child hchild => hvalid child id ⟨node, hnode, hchild⟩ with
        ⟨hchildren, hclosed⟩
      rcases ihBehind hrest with ⟨hstarts, hclosed'⟩
      have hlast := (f.visitAll below.1 rest).2
      rw [visitAll_of_node? hid hnode]
      refine ⟨List.forall_mem_cons.mpr ⟨hlast.mem (below.2.mem List.mem_cons_self), hstarts⟩, ?_⟩
      intro above habove hnew child hchild
      by_cases hbelow : above ∈ below.1
      · refine hlast.mem ?_
        by_cases hself : above = id
        · -- The node itself: its children are visited right behind it.
          subst hself
          rcases hchild with ⟨node', hnode', hmem⟩
          cases hnode'.symm.trans hnode
          exact hchildren child hmem
        · refine hclosed above hbelow (fun hmem => ?_) child hchild
          exact (List.mem_cons.mp hmem).elim hself hnew
      · exact hclosed' above habove hbelow child hchild

/-- The nodes below a root, the root included, in the order in which the
    recursion first visits them. -/
def depthFirst (f : Forest T N) (root : NodeId) : List NodeId := (f.visitAll [] [root]).1.reverse

/-- The walk lists the nodes in the order of their first visits. -/
theorem map_fst_preorder (f : Forest T N) (root : NodeId) :
    (f.preorder root).map Prod.fst = f.depthFirst root ∧
      ∀ entry ∈ f.preorder root, f.node? entry.1 = some entry.2 := by
  rcases f.preorderFrom_append [] [root] with ⟨met, hnodes, hafter, hwalk⟩
  have hmet : f.preorder root = met := by
    have hpreorder := hwalk []
    rwa [List.append_nil, preorderFrom.eq_1, List.append_nil] at hpreorder
  rw [hmet, depthFirst, hafter, List.append_nil, List.reverse_reverse]
  exact ⟨rfl, hnodes⟩

/-- The nodes visited are those that are reached from the root. -/
theorem mem_depthFirst_iff (hvalid : ∀ below above, f.Child below above →
    ∃ node, f.node? below = some node) {root : NodeId} {node : Node T N}
    (hroot : f.node? root = some node) {id : NodeId} :
    id ∈ f.depthFirst root ↔ Relation.ReflTransGen f.Child id root := by
  have hids : ∀ id ∈ [root], ∃ node, f.node? id = some node :=
    List.forall_mem_singleton.mpr ⟨node, hroot⟩
  rcases @visitAll_closed T N f hvalid [] [root] hids with ⟨hstarts, hclosed⟩
  rw [depthFirst, List.mem_reverse]
  constructor
  · intro h
    rcases reached_of_mem_visitAll h with hvisited | ⟨start, hstart, hreach⟩
    · exact absurd hvisited List.not_mem_nil
    · rwa [List.mem_singleton.mp hstart] at hreach
  · intro h
    -- From the root down to the node, each step leads to a child.
    induction h using Relation.ReflTransGen.head_induction_on with
    | refl => exact hstarts root (List.mem_singleton_self root)
    | head hchild _ ih => exact hclosed _ ih List.not_mem_nil _ hchild

/-- The walk lists the nodes that are reached from the root. -/
theorem mem_preorder_iff (hvalid : ∀ below above, f.Child below above →
    ∃ node, f.node? below = some node) {root : NodeId} {node : Node T N}
    (hroot : f.node? root = some node) {id : NodeId} {below : Node T N} :
    (id, below) ∈ f.preorder root ↔
      Relation.ReflTransGen f.Child id root ∧ f.node? id = some below := by
  rcases f.map_fst_preorder root with ⟨hfst, hnodes⟩
  rw [← mem_depthFirst_iff hvalid hroot, ← hfst, List.mem_map]
  constructor
  · exact fun h => ⟨⟨_, h, rfl⟩, hnodes _ h⟩
  · rintro ⟨⟨⟨id', below'⟩, hentry, rfl⟩, hbelow⟩
    cases (hnodes _ hentry).symm.trans hbelow
    exact hentry

/-- The children of the nodes of a sound forest are nodes. -/
theorem Sound.exists_node_of_child {g : Grammar T N} {input : List T} (h : f.Sound g input)
    {below above : NodeId} (hchild : f.Child below above) : ∃ node, f.node? below = some node := by
  rcases hchild with ⟨node, hnode, hmem⟩
  rcases List.mem_flatMap.mp hmem with ⟨family, hfamily, hmem⟩
  rcases h.child (h.way ⟨node.families, hnode, hfamily⟩) hmem with ⟨_, _, ⟨_, hbelow⟩, _⟩
  exact ⟨_, hbelow⟩

end Forest

end EarleyForest
