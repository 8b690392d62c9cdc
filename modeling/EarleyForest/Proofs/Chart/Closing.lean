import Mathlib.Algebra.BigOperators.Ring.List
import Mathlib.Algebra.Ring.Nat
import Mathlib.Data.List.Perm.Subperm
import EarleyForest.Chart.Parse
import EarleyForest.Proofs.Chart.Shift

/-!
# Closing Columns

A column is closed by a bounded number of steps. The bound is enough because
every step processes an item of the column for good, and because a column has
room for no more items than the bound says: their keys are different, and
each names a place of a dot in a rule and an origin up to the position.

From this and the moves that keep the invariant it follows what a parse ends
with: a stage behind the whole input whose agenda is empty, so that all work
has been done.

## Main definitions

* `Grammar.keysUpTo`: The keys that items of a column can have.
* `Stage.WorksOff`: An agenda is worked off, in any number of steps.
* `Stage.Settled`: A stage at which all work has been done.

## Theorems

* `Sound.length_le_capacity`: A column does not outgrow its capacity.
* `Invariant.worksOff_close`, `Invariant.close`: Closing a column works its
  agenda off and leaves nothing to process.
* `Invariant.read`: Reading the next terminal keeps the invariant.
* `settled_close_run`, `parse_settled`: A parse ends with all work done.
-/

namespace EarleyForest

variable {T N : Type}

/-- The keys that items of the column at a position can have. -/
def Grammar.keysUpTo (g : Grammar T N) (position : Nat) : List (Nat × Nat × Nat) :=
  g.rules.zipIdx.flatMap fun (r, rule) =>
    (List.range (r.body.length + 1)).flatMap fun dot =>
      (List.range (position + 1)).map fun origin => (rule, dot, origin)

theorem Grammar.length_keysUpTo (g : Grammar T N) (position : Nat) :
    (g.keysUpTo position).length = Stage.capacity g position := by
  have hrules : (g.rules.zipIdx.map fun p => p.1.body.length + 1) =
      g.rules.map fun r => r.body.length + 1 := by
    rw [← List.zipIdx_map_fst 0 g.rules, List.map_map, List.zipIdx_map_fst]
    rfl
  simp only [keysUpTo, List.length_flatMap, List.length_map, List.length_range, List.map_const',
    List.sum_replicate_nat, Stage.capacity]
  rw [List.sum_map_mul_right, hrules, Nat.mul_comm, List.sum, List.foldr_map]

/-- A found item has one of these keys. -/
theorem Item.Found.key_mem {g : Grammar T N} {input : List T} {f : Forest T N} {item : Item}
    {position : Nat} (h : item.Found g input f position) : item.key ∈ g.keysUpTo position := by
  rcases h.matched with ⟨r, hr, hdot, _, hderives⟩
  have horigin := hderives.le
  refine List.mem_flatMap.mpr ⟨(r, item.rule), List.mem_zipIdx_iff_getElem?.mpr hr, ?_⟩
  refine List.mem_flatMap.mpr ⟨item.dot, List.mem_range.mpr (by omega), ?_⟩
  exact List.mem_map.mpr ⟨item.origin, List.mem_range.mpr (by omega), rfl⟩

namespace Stage

variable [DecidableEq T] [DecidableEq N] {g : Grammar T N} {input : List T} {s : Stage T N}
  {done : List Item}

/-- The agenda is worked off: as long as there is an item on it, the first one
    is taken off and processed. The items are those taken off, in their order.
    Nothing bounds their number beforehand. -/
inductive WorksOff (g : Grammar T N) : Stage T N → List Item → Stage T N → Prop where
  | done {s : Stage T N} (idle : s.front.agenda = []) : WorksOff g s [] s
  | next {s s' : Stage T N} {item : Item} {rest items : List Item}
      (first : s.front.agenda = item :: rest) (later : WorksOff g (s.step g) items s') :
      WorksOff g s (item :: items) s'

omit [DecidableEq T] in
/-- The open column does not outgrow its capacity. -/
theorem Sound.length_le_capacity (h : s.Sound g input) :
    s.front.column.items.length ≤ capacity g s.front.position := by
  have hdistinct := h.distinct (Nat.le_refl _)
  rw [Front.columnAt_position] at hdistinct
  -- The keys are different, and there are only so many of them.
  have hkeys : s.front.column.items.map Item.key ⊆ g.keysUpTo s.front.position := by
    intro key hkey
    rcases List.mem_map.mp hkey with ⟨item, hitem, rfl⟩
    rw [← Front.columnAt_position] at hitem
    exact (h.found (Nat.le_refl _) hitem).key_mem
  have hlength := (List.subperm_of_subset hdistinct hkeys).length_le
  rwa [List.length_map, Grammar.length_keysUpTo] at hlength

/-- When an agenda has been worked off, nothing is left on it. -/
theorem WorksOff.agenda_eq {s' : Stage T N} {items : List Item} (h : s.WorksOff g items s') :
    s'.front.agenda = [] := by
  induction h with
  | done idle => exact idle
  | next _ _ ih => exact ih

/-- Enough steps work the agenda off: each of them counts one item of the open
    column as processed. -/
theorem Invariant.worksOff_stepFor (n : Nat) (h : s.Invariant g input done)
    (henough : capacity g s.front.position ≤ done.length + n) :
    ∃ items, s.WorksOff g items (s.stepFor g n) ∧
      (s.stepFor g n).Invariant g input (done ++ items) ∧
      (s.stepFor g n).front.position = s.front.position := by
  -- By induction on the steps left. Together with the items processed they are
  -- never fewer than the column can hold.
  induction n generalizing s done with
  | zero =>
      -- What has been processed fills the column by now.
      have hlength : (done ++ s.front.agenda).length ≤ s.front.column.items.length := by
        rw [h.ordered.agenda]
        exact List.length_filter_le _ _
      have hroom := h.sound.length_le_capacity
      have hdone : s.front.agenda.length = 0 := by
        rw [List.length_append] at hlength
        omega
      refine ⟨[], .done (List.eq_nil_of_length_eq_zero hdone), ?_, rfl⟩
      rw [List.append_nil]
      exact h
  | succ n ih =>
      cases hagenda : s.front.agenda with
      | nil =>
          have hstop : s.stepFor g (n + 1) = s := by
            simp only [Stage.stepFor, hagenda, List.isEmpty_nil, if_true]
          rw [hstop]
          refine ⟨[], .done hagenda, ?_, rfl⟩
          rw [List.append_nil]
          exact h
      | cons item rest =>
          -- One step processes one item, so one step less is enough for the rest.
          have hgo : s.stepFor g (n + 1) = (s.step g).stepFor g n := by
            simp only [Stage.stepFor, hagenda, List.isEmpty_cons, Bool.false_eq_true, if_false]
          rcases h.step hagenda with ⟨hstep, hposition⟩
          have henough' : capacity g (s.step g).front.position ≤ (done ++ [item]).length + n := by
            rw [hposition, List.length_append, List.length_singleton]
            omega
          rcases ih hstep henough' with ⟨items, hitems, hinvariant, hstays⟩
          rw [List.append_assoc] at hinvariant
          rw [hgo]
          exact ⟨item :: items, .next hagenda hitems, hinvariant, hstays.trans hposition⟩

/-- Closing a column works its agenda off and keeps the invariant. -/
theorem Invariant.worksOff_close (h : s.Invariant g input done) :
    ∃ items, s.WorksOff g items (s.close g) ∧ (s.close g).Invariant g input (done ++ items) ∧
      (s.close g).front.position = s.front.position :=
  h.worksOff_stepFor _ (Nat.le_add_left _ _)

/-- Closing a column keeps the invariant and leaves nothing to process. -/
theorem Invariant.close (h : s.Invariant g input done) :
    ∃ done, (s.close g).Invariant g input done ∧ (s.close g).front.agenda = [] ∧
      (s.close g).front.position = s.front.position := by
  rcases h.worksOff_close with ⟨items, hitems, hclose, hposition⟩
  exact ⟨done ++ items, hclose, hitems.agenda_eq, hposition⟩

/-- Reading the next terminal of the input keeps the invariant. No item of the
    column behind it has been processed yet. -/
theorem Invariant.read {t : T} {rest : List T} (h : s.Invariant g input done)
    (hrest : input.drop s.front.position = t :: rest) :
    ((s.close g).shift g t rest.head?).Invariant g input [] ∧
      ((s.close g).shift g t rest.head?).front.position = s.front.position + 1 ∧
      input.drop (s.front.position + 1) = rest := by
  rcases h.close with ⟨closed, hclosed, hagenda, hposition⟩
  rw [← hposition] at hrest ⊢
  -- The rest of the input is what comes behind the position.
  have ht : input[(s.close g).front.position]? = some t := by
    rw [← List.head?_drop, hrest, List.head?_cons]
  have hrest' : input.drop ((s.close g).front.position + 1) = rest := by
    rw [← List.tail_drop, hrest, List.tail_cons]
  rcases hclosed.shift hagenda ht with ⟨hshift, hnext⟩
  rw [← List.head?_drop, hrest'] at hshift hnext
  exact ⟨hshift, hnext, hrest'⟩

/-- Going through the rest of the input keeps the invariant. -/
theorem Invariant.run (rest : List T) (h : s.Invariant g input done)
    (hrest : input.drop s.front.position = rest) :
    ∃ done, (s.run g rest).Invariant g input done ∧
      (s.run g rest).front.position = input.length := by
  induction rest generalizing s done with
  | nil =>
      have hlength := List.drop_eq_nil_iff.mp hrest
      exact ⟨done, h, Nat.le_antisymm h.sound.position_le hlength⟩
  | cons t rest ih =>
      rcases h.read hrest with ⟨hshift, hnext, hrest'⟩
      exact ih hshift (by rw [hnext, hrest'])

/-- The parse starts at position zero, with nothing marked. -/
theorem position_start (g : Grammar T N) (lookahead : Option T) :
    (start g lookahead : Stage T N).front.position = 0 ∧
      (start g lookahead : Stage T N).front.mark = 0 := by
  rcases Front.closed_offerAll g (Front.blank lookahead #[] 0 : Front T N)
      ((g.rulesFor g.start).map (Item.fresh 0)) with ⟨hclosed, hmark⟩
  exact ⟨congrArg Array.size hclosed, hmark⟩

/-- A stage behind the whole input at which all work has been done. -/
structure Settled (g : Grammar T N) (input : List T) (done : List Item) (s : Stage T N) :
    Prop where
  invariant : s.Invariant g input done
  agenda : s.front.agenda = []
  position : s.front.position = input.length

/-- The stage with which a parse ends has all work done. -/
theorem settled_close_run (g : Grammar T N) (input : List T) :
    ∃ done, (((start g input.head?).run g input).close g).Settled g input done := by
  have hdrop : input.drop (start g input.head? : Stage T N).front.position = input := by
    rw [(position_start g _).1, List.drop_zero]
  rcases (invariant_start g input).run input hdrop with ⟨_, hrun, hlength⟩
  rcases hrun.close with ⟨done, hclose, hagenda, hstays⟩
  exact ⟨done, hclose, hagenda, hstays.trans hlength⟩

/-- A parse ends with all work done. -/
theorem parse_settled (g : Grammar T N) (input : List T) :
    ∃ (s : Stage T N) (done : List Item), s.Settled g input done ∧ g.parse input = s.toParse g := by
  rcases settled_close_run g input with ⟨done, hs⟩
  exact ⟨_, done, hs, rfl⟩

end Stage

end EarleyForest
