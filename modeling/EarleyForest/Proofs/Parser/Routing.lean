import EarleyForest.Proofs.Chart.Routing
import EarleyForest.Proofs.Parser.Closure

/-!
# What Is Handed to a Shift

A parse never hands an item to a shift by mistake. When a column is left, the
items put down for the shift are those of its items that expect a terminal, in
the order of the column. A column takes no item that expects a terminal other
than the next one; so all of them expect the next one, and behind the last one
there are none.

Hence a parse that looks at each item before it is shifted comes to the same
end as one that does not look. The two differ in one more thing. When a column
is opened, the one lists all of its items, and the other only those that expect
no terminal. That is a matter of the agenda, and both are worked off to the
same stage.

## Theorems

* `WorksOff.stepFor_eq`, `Invariant.close_listing`: Which items are listed when
  a column is opened makes no difference.
* `opened_succ`: Each column is opened by a shift from the one before it.
* `Invariant.shifting_spec`: Which items are put down for the shift.
* `routed_eq_ok`, `items_routed`: A parse that looks at each item goes through.
-/

namespace EarleyForest

variable {T N : Type}

namespace Stage

variable [DecidableEq T] [DecidableEq N] {g : Grammar T N} {input : List T} {s : Stage T N}
  {done : List Item}

/-- An agenda that is worked off is worked off by as many steps as there are
    items, or by more. -/
theorem WorksOff.stepFor_eq {s' : Stage T N} {items : List Item} (h : s.WorksOff g items s')
    {n : Nat} (henough : items.length ≤ n) : s.stepFor g n = s' := by
  induction h generalizing n with
  | done idle =>
      cases n with
      | zero => rfl
      | succ n => rw [stepFor, idle, List.isEmpty_nil, if_pos rfl]
  | next first _ ih =>
      cases n with
      | zero => exact absurd henough (Nat.not_succ_le_zero _)
      | succ n =>
          rw [stepFor, first, List.isEmpty_cons, if_neg Bool.false_ne_true]
          exact ih (Nat.le_of_succ_le_succ henough)

/-- A column that has been opened is closed to the same stage with all of its
    items on the agenda. -/
theorem Invariant.close_listing (h : s.Invariant g input []) :
    (s.listing s.front.column.items).close g = s.close g := by
  rcases h.worksOff_items with ⟨popped, hworks, _, hsublist, _⟩
  rcases h.close with ⟨_, hclose, _, hposition⟩
  -- No more items are taken off than the column holds in the end.
  have hroom := hclose.sound.length_le_capacity
  rw [hposition] at hroom
  exact hworks.stepFor_eq (Nat.le_trans hsublist.length_le hroom)

/-- One more terminal is gone through by one more shift. -/
theorem runUpTo_concat (g : Grammar T N) (next : Option T) (s : Stage T N) (first : List T)
    (t : T) : s.runUpTo g next (first ++ [t]) =
      ((s.runUpTo g (some t) first).close g).shift g t next := by
  induction first generalizing s with
  | nil => rfl
  | cons a first ih =>
      have hnext : (first ++ [t]).head?.or next = first.head?.or (some t) := by
        cases first with
        | nil => rfl
        | cons b first => rfl
      rw [List.cons_append, runUpTo, runUpTo, hnext]
      exact ih _

theorem opened_zero (g : Grammar T N) (input : List T) :
    opened g input 0 = start g input[0]? := by
  rw [← List.head?_eq_getElem?]
  rfl

/-- Each column but the first is opened by a shift over the terminal before
    it. -/
theorem opened_succ (g : Grammar T N) {input : List T} {position : Nat} {t : T}
    (ht : input[position]? = some t) :
    opened g input (position + 1) =
      (closedAt g input position).shift g t input[position + 1]? := by
  have htake : input.take (position + 1) = input.take position ++ [t] := by
    rw [List.take_add_one, ht, Option.toList_some]
  rw [opened, htake, runUpTo_concat, ← ht]
  rfl

omit [DecidableEq T] in
/-- The items put down for the shift are those of the open column that expect a
    terminal, each of them once. They expect the next terminal, and if there is
    none, there are no such items. -/
theorem Invariant.shifting_spec (h : s.Invariant g input done) :
    s.front.shifting = (s.front.column.items.filter fun item => item.expectsTerminal g) ∧
      (s.front.shifting.map Item.key).Nodup ∧
      (∀ t, input[s.front.position]? = some t →
        ∀ item ∈ s.front.shifting, item.next? g = some (.terminal t)) ∧
      (input[s.front.position]? = none →
        ∀ item ∈ s.front.column.items, item.expectsTerminal g = false) := by
  have hshifting := h.ordered.shifting
  refine ⟨hshifting, ?_, fun t ht item hitem =>
    (h.sound.next_of_shifting h.ordered ht hitem).2, fun hlast item hitem => ?_⟩
  · have hdistinct := h.sound.distinct (Nat.le_refl _)
    rw [Front.columnAt_position] at hdistinct
    rw [hshifting]
    exact hdistinct.sublist (List.filter_sublist.map _)
  · rw [← Front.columnAt_position] at hitem
    by_contra hwaits
    rw [Bool.not_eq_false] at hwaits
    rcases Item.expectsTerminal_eq_true_iff.mp hwaits with ⟨t, ht⟩
    have hviable := h.sound.viable (Nat.le_refl _) hitem t ht
    rw [hlast] at hviable
    cases hviable

/-- When a column is left and the shift behind it is made, the next column is
    left as well. -/
theorem routed_succ {position : Nat} {s' : Stage T N} {t : T}
    (hs : routed g input position = .ok s) (ht : input[position]? = some t)
    (hs' : s.shift? g t input[position + 1]? = .ok s') :
    routed g input (position + 1) = .ok (s'.leave g) := by
  simp only [routed, hs, ht, bind, Except.bind, hs', pure, Except.pure]

/-- A parse that looks at each item before it is shifted gets to the end of
    every column, at the same stage as one that does not look. -/
theorem routed_eq_ok (g : Grammar T N) {input : List T} {position : Nat}
    (h : position ≤ input.length) :
    routed g input position = .ok (closedAt g input position) := by
  -- By induction on the columns. What is opened has all of its items listed,
  -- which makes no difference once the column is left.
  induction position with
  | zero =>
      have hclose := (invariant_opened g h).1.close_listing
      rw [opened_zero, ← begin_eq] at hclose
      rw [routed, leave_eq_close, hclose, ← opened_zero]
      rfl
  | succ position ih =>
      have ht : input[position]? = some input[position] := List.getElem?_eq_getElem h
      rcases closedAt_spec g (Nat.le_of_succ_le h) with ⟨done, hinvariant, _, hposition⟩
      have hexpects := hinvariant.shifting_spec.2.2.1
      rw [hposition] at hexpects
      have hshift := shift?_eq_ok input[position + 1]? (hexpects _ ht)
      have hclose := (invariant_opened g h).1.close_listing
      rw [← opened_succ g ht] at hshift
      rw [routed_succ (ih (Nat.le_of_succ_le h)) ht hshift, leave_eq_close, hclose, closedAt]

/-- When the last column is left, the parse is over. -/
theorem toParse_closedAt (g : Grammar T N) (input : List T) :
    (closedAt g input input.length).toParse g = g.parse input := by
  rw [(columns_opened g (Nat.le_refl input.length)).1, List.drop_length]
  rfl

end Stage

namespace Parser

variable [DecidableEq T] [DecidableEq N]

/-- A parse that looks at each item before it is shifted goes through, and its
    outcome is the same. When it leaves a column, the items put down for the
    shift are those of the column that expect a terminal, in their order and
    each of them once; all of them expect the terminal that comes next, so the
    shift over it is made. In the last column no item expects a terminal. -/
theorem items_routed (p : Parser T N) (input : List T) :
    p.grammar.parse? input = .ok (p.parse input) ∧
      ∀ i ≤ input.length, ∃ s column, Stage.routed p.grammar input i = .ok s ∧
        s.front.position = i ∧ s.front.agenda = [] ∧ s.front.column = column ∧
        (p.parse input).columns[i]? = some column ∧
        s.front.shifting =
          (column.items.filter fun item => item.expectsTerminal p.grammar) ∧
        (s.front.shifting.map Item.key).Nodup ∧
        (∀ t, input[i]? = some t →
          (∀ item ∈ s.front.shifting, item.next? p.grammar = some (.terminal t)) ∧
          ∃ s', s.shift? p.grammar t input[i + 1]? = .ok s' ∧
            Stage.routed p.grammar input (i + 1) = .ok (s'.leave p.grammar)) ∧
        (i = input.length →
          ∀ item ∈ column.items, ∀ t, item.next? p.grammar ≠ some (.terminal t)) := by
  refine ⟨?_, fun i hi => ?_⟩
  · rw [Grammar.parse?, Stage.routed_eq_ok p.grammar (Nat.le_refl _)]
    exact congrArg Except.ok (Stage.toParse_closedAt p.grammar input)
  · rcases Stage.closedAt_spec p.grammar hi with ⟨done, hinvariant, hagenda, hposition⟩
    rcases hinvariant.shifting_spec with ⟨hshifting, hdistinct, hexpects, hlast⟩
    rw [hposition] at hexpects hlast
    have hrouted := Stage.routed_eq_ok p.grammar hi
    refine ⟨_, _, hrouted, hposition, hagenda, rfl, (Stage.columns_opened p.grammar hi).2,
      hshifting, hdistinct, fun t ht => ⟨hexpects t ht, ?_⟩, fun hend item hitem t hnext => ?_⟩
    · rcases Stage.exists_shift?_iff.mpr (hexpects t ht) with ⟨s', hs'⟩
      exact ⟨s', hs', Stage.routed_succ hrouted ht hs'⟩
    · have hnone := hlast (List.getElem?_eq_none (Nat.le_of_eq hend.symm)) item hitem
      rw [Item.expectsTerminal_eq_true_iff.mpr ⟨t, hnext⟩] at hnone
      cases hnone

end Parser

end EarleyForest
