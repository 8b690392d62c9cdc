import Mathlib.Data.List.Nodup
import EarleyForest.Proofs.Chart.Offers
import EarleyForest.Proofs.Chart.Worklist
import EarleyForest.Proofs.Parser.Beginning

/-!
# How Columns Are Filled

Whatever the grammar, the agenda of each column is worked off. The items that
are taken off are different items of the column, and each item that expects no
terminal is among them, so it is taken off once.

In between, a column is never larger than what it can hold: it only grows, and
at the end its items are found under different keys.

## Main definitions

* `Offer.Fits`: An offer meets a column that is not too large.
* `Stage.opened`: The stage of a parse at which a column has been opened.

## Theorems

* `Front.fits_offerAll`, `Stage.Invariant.fits_run`: The offers of a parse fit.
* `invariant_opened`, `columns_opened`: The stages at which columns are opened,
  and what becomes of these columns.
* `columns_worked_off`: Each column is worked off, item by item.
-/

namespace EarleyForest

variable {T N : Type}

/-- The column that an offer meets is not larger than what it can hold. -/
def Offer.Fits (g : Grammar T N) (o : Offer) : Prop :=
  o.column.items.length ≤ Stage.capacity g o.position

theorem Stage.capacity_eq (g : Grammar T N) (position : Nat) :
    capacity g position = (position + 1) * (g.rules.map fun r => r.body.length + 1).sum := by
  rw [capacity, List.sum, List.foldr_map]

section

variable [DecidableEq T] [DecidableEq N] {g : Grammar T N} {input : List T}

namespace Front

omit [DecidableEq N] in
/-- The columns that offers meet one after the other are not larger than the one
    they leave behind. -/
theorem length_le_of_mem_offersOf {items : List Item} {s : Front T N} {o : Offer}
    (h : o ∈ s.offersOf g items) :
    o.column.items.length ≤ (s.offerAll g items).column.items.length := by
  induction items generalizing s with
  | nil => exact absurd h List.not_mem_nil
  | cons item rest ih =>
      rcases List.mem_cons.mp h with rfl | h
      · rcases offerAll_spec (g := g) (item :: rest) s with ⟨added, hoffer, _⟩
        rw [hoffer, taking, List.length_append]
        exact Nat.le_add_right _ _
      · exact ih h

/-- Offers fit if everything is true when they have been taken in. -/
theorem fits_offerAll {s : Front T N} {forest : Forest T N} {items : List Item}
    (h : (⟨s.offerAll g items, forest⟩ : Stage T N).Sound g input) :
    ∀ o ∈ s.offersOf g items, o.Fits g := by
  intro o ho
  have hposition : (s.offerAll g items).position = s.position :=
    congrArg Array.size (closed_offerAll g s items).1
  rw [Offer.Fits, (of_mem_offersOf ho).1, ← hposition]
  exact Nat.le_trans (length_le_of_mem_offersOf ho) h.length_le_capacity

end Front

namespace Stage

variable {s : Stage T N} {done : List Item}

/-- The offers made when an item is processed fit. -/
theorem Invariant.fits_step (h : s.Invariant g input done) {item : Item} {rest : List Item}
    (hagenda : s.front.agenda = item :: rest) : ∀ o ∈ s.stepOffers g, o.Fits g := by
  have hsound := (h.step hagenda).1.sound
  rcases s with ⟨front, forest⟩
  simp only at hagenda
  simp only [Stage.step, hagenda] at hsound
  simp only [stepOffers, hagenda]
  exact Front.fits_offerAll hsound

/-- The offers made when a column is closed fit. -/
theorem Invariant.fits_stepFor (n : Nat) (h : s.Invariant g input done) :
    ∀ o ∈ s.stepForOffers g n, o.Fits g := by
  induction n generalizing s done with
  | zero => exact fun _ ho => absurd ho List.not_mem_nil
  | succ n ih =>
      rw [stepForOffers]
      cases hagenda : s.front.agenda with
      | nil => exact fun _ ho => absurd ho List.not_mem_nil
      | cons item rest =>
          rw [List.isEmpty_cons, if_neg Bool.false_ne_true]
          intro o ho
          rcases List.mem_append.mp ho with ho | ho
          · exact h.fits_step hagenda o ho
          · exact ih (h.step hagenda).1 o ho

/-- The offers made when the next column is opened fit. -/
theorem fits_shift {t : T} {next : Option T} (h : (s.shift g t next).Sound g input) :
    ∀ o ∈ s.shiftOffers g t next, o.Fits g := by
  rcases s with ⟨front, forest⟩
  exact Front.fits_offerAll h

/-- The offers made until the end of the input fit. -/
theorem Invariant.fits_run (rest : List T) (h : s.Invariant g input done)
    (hrest : input.drop s.front.position = rest) : ∀ o ∈ s.runOffers g rest, o.Fits g := by
  -- By induction on the rest of the input, one column at a time.
  induction rest generalizing s done with
  | nil => exact h.fits_stepFor _
  | cons t rest ih =>
      rcases h.read hrest with ⟨hread, hnext, hrest'⟩
      intro o ho
      rcases List.mem_append.mp ho with ho | ho
      · rcases List.mem_append.mp ho with ho | ho
        · exact h.fits_stepFor _ o ho
        · exact fits_shift hread.sound o ho
      · exact ih hread (by rw [hnext, hrest']) o ho

/-- The offers of a parse fit. -/
theorem fits_offers (g : Grammar T N) (input : List T) : ∀ o ∈ g.offers input, o.Fits g := by
  intro o ho
  rcases List.mem_append.mp ho with ho | ho
  · exact Front.fits_offerAll (invariant_start g input).sound o ho
  · refine (invariant_start g input).fits_run input ?_ o ho
    rw [(position_start g _).1, List.drop_zero]

/-- The stage of a parse at which the column at a position has been opened. -/
def opened (g : Grammar T N) (input : List T) (position : Nat) : Stage T N :=
  (start g input.head?).runUpTo g input[position]? (input.take position)

theorem behind_take (g : Grammar T N) (input : List T) (position : Nat) :
    behind g (input.take position) input[position]? = (opened g input position).close g := by
  have hhead : (input.take position).head?.or input[position]? = input.head? := by
    rw [← List.head?_drop, ← List.head?_append, List.take_append_drop]
  rw [behind, hhead, opened]

/-- When a column has been opened, no item of it has been processed. -/
theorem invariant_opened (g : Grammar T N) {input : List T} {position : Nat}
    (h : position ≤ input.length) : (opened g input position).Invariant g input [] ∧
      (opened g input position).front.position = position := by
  have hdrop : input.drop (start g input.head? : Stage T N).front.position =
      input.take position ++ input.drop position := by
    rw [(position_start g _).1, List.drop_zero, List.take_append_drop]
  rcases (invariant_start g input).runUpTo _ _ hdrop with ⟨hinvariant, hposition⟩
  rw [List.head?_drop] at hinvariant hposition
  rw [(position_start g _).1, Nat.zero_add, List.length_take_of_le h] at hposition
  exact ⟨hinvariant, hposition⟩

/-- The parse goes on from each stage at which a column has been opened. When
    that column is closed, it is as the parse has it in the end. -/
theorem columns_opened (g : Grammar T N) {input : List T} {position : Nat}
    (h : position ≤ input.length) :
    g.parse input = (((opened g input position).run g (input.drop position)).close g).toParse g ∧
      (g.parse input).columns[position]? =
        some ((opened g input position).close g).front.column := by
  have hinput := List.take_append_drop position input
  refine ⟨?_, ?_⟩
  · have hrun := run_append g (start g input.head?) (input.take position) (input.drop position)
    rw [hinput, List.head?_drop] at hrun
    rw [Grammar.parse, hrun, opened]
  · rcases decides_behind g (input.take position) (input.drop position) with ⟨hdecides, hposition⟩
    rw [hinput, List.head?_drop, behind_take] at hdecides
    rw [List.head?_drop, behind_take, List.length_take_of_le h] at hposition
    have hcolumn := hdecides.columns (Nat.le_of_eq hposition.symm)
    have hlast := Front.columnAt_position ((opened g input position).close g).front
    rw [hposition] at hlast
    rw [hcolumn, hlast]

/-- A column of which no item has been processed is worked off with all its
    items on the agenda. Those taken off are items of the closed column, in
    their order, and none that expects no terminal is missing. -/
theorem Invariant.worksOff_items (h : s.Invariant g input []) :
    ∃ popped, (s.listing s.front.column.items).WorksOff g popped (s.close g) ∧
      s.WorksOff g (popped.filter fun item => !item.expectsTerminal g) (s.close g) ∧
      popped.Sublist (s.close g).front.column.items ∧
      (popped.filter fun item => !item.expectsTerminal g) =
        (s.close g).front.column.items.filter fun item => !item.expectsTerminal g := by
  rcases h.worksOff_close with ⟨items, hworks, hclose, _⟩
  have hitems := hclose.ordered.agenda
  rw [hworks.agenda_eq, List.append_nil, List.nil_append] at hitems
  rcases hworks.listing h.ordered.agenda.symm with ⟨added, hcolumn, hall⟩
  have hpopped : ((s.front.column.items ++ added.filter fun item => !item.expectsTerminal g).filter
      fun item => !item.expectsTerminal g) =
        (s.close g).front.column.items.filter fun item => !item.expectsTerminal g := by
    rw [hcolumn, List.filter_append, List.filter_append, List.filter_filter]
    simp only [Bool.and_self]
  refine ⟨_, hall, ?_, ?_, hpopped⟩
  · rw [hpopped, ← hitems]
    exact hworks
  · rw [hcolumn]
    exact (List.Sublist.refl _).append List.filter_sublist

end Stage

end

namespace Parser

variable [DecidableEq T] [DecidableEq N]

/-- The agenda of each column is worked off, and so it is if all items of the
    column that is opened are put on it. Those taken off then are different
    items of the column, and each of its items that is complete or expects a
    nonterminal is taken off once. No offer meets a column that is larger than
    what it can hold, and no column is larger than this in the end. -/
theorem columns_worked_off (p : Parser T N) (input : List T) :
    (∀ j ≤ input.length, ∃ column popped,
      (p.parse input).columns[j]? = some column ∧
      p.parse input = (((Stage.opened p.grammar input j).run p.grammar
        (input.drop j)).close p.grammar).toParse p.grammar ∧
      (Stage.opened p.grammar input j).front.position = j ∧
      ((Stage.opened p.grammar input j).close p.grammar).front.column = column ∧
      ((Stage.opened p.grammar input j).listing
        (Stage.opened p.grammar input j).front.column.items).WorksOff p.grammar popped
        ((Stage.opened p.grammar input j).close p.grammar) ∧
      (Stage.opened p.grammar input j).WorksOff p.grammar
        (popped.filter fun item => !item.expectsTerminal p.grammar)
        ((Stage.opened p.grammar input j).close p.grammar) ∧
      (∀ item ∈ popped, item ∈ column.items) ∧
      (popped.map Item.key).Nodup ∧
      ∀ item ∈ column.items, (item.next? p.grammar = none ∨
        ∃ n, item.next? p.grammar = some (.nonterminal n)) → popped.count item = 1) ∧
    (∀ o ∈ p.grammar.offers input, o.column.items.length ≤
      (o.position + 1) * (p.grammar.rules.map fun r => r.body.length + 1).sum) ∧
    ∀ j column, (p.parse input).columns[j]? = some column → column.items.length ≤
      (j + 1) * (p.grammar.rules.map fun r => r.body.length + 1).sum := by
  refine ⟨fun j hj => ?_, fun o ho => ?_, fun j column hcolumn => ?_⟩
  · rcases Stage.invariant_opened p.grammar hj with ⟨hopened, hposition⟩
    rcases Stage.columns_opened p.grammar hj with ⟨hparse, hcolumn⟩
    rcases hopened.worksOff_items with ⟨popped, hall, hworks, hsublist, hmissing⟩
    rcases hopened.close with ⟨_, hclose, _, _⟩
    have hkeys : (popped.map Item.key).Nodup := by
      have hdistinct := hclose.sound.distinct (Nat.le_refl _)
      rw [Front.columnAt_position] at hdistinct
      exact hdistinct.sublist (hsublist.map _)
    refine ⟨_, popped, hcolumn, hparse, hposition, rfl, hall, hworks,
      fun item hitem => hsublist.subset hitem, hkeys, fun item hitem hnext => ?_⟩
    -- An item that is not to be shifted is taken off, and only once because the
    -- items taken off are different.
    have hwaits : item.expectsTerminal p.grammar = false := by
      rcases hnext with hnext | ⟨n, hnext⟩
      · exact Item.expectsTerminal_of_complete hnext
      · exact Item.expectsTerminal_of_nonterminal hnext
    have hmem : item ∈ popped.filter fun item => !item.expectsTerminal p.grammar := by
      rw [hmissing, List.mem_filter, hwaits]
      exact ⟨hitem, rfl⟩
    exact List.count_eq_one_of_mem (List.Nodup.of_map _ hkeys) (List.mem_filter.mp hmem).1
  · rw [← Stage.capacity_eq]
    exact Stage.fits_offers p.grammar input o ho
  · have hj : j ≤ input.length := by
      rcases Stage.parse_settled p.grammar input with ⟨s, done, hs, hparse⟩
      rw [parse, hparse] at hcolumn
      rw [← hs.position]
      exact (Stage.columnAt_of_toParse hcolumn).1
    rcases Stage.invariant_opened p.grammar hj with ⟨hopened, hposition⟩
    rcases hopened.close with ⟨_, hclose, _, hstays⟩
    have hroom := hclose.sound.length_le_capacity
    rw [parse, (Stage.columns_opened p.grammar hj).2, Option.some.injEq] at hcolumn
    rw [hcolumn, hstays, hposition, Stage.capacity_eq] at hroom
    exact hroom

end Parser

end EarleyForest
