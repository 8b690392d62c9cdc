import EarleyForest.Proofs.Chart.Closing

/-!
# Items on the Agenda that Only Wait

The agenda leaves out the items that expect a terminal. They could be listed
there as well: nothing is done when such an item is taken off, because it has
been put down for the shift already. So an agenda to which they are added is
worked off too, and it leads to the same stage.

What makes this a short argument is that neither the processing of an item nor
the taking in of offers looks at the agenda.

## Main definitions

* `Stage.listing`: A stage with another agenda.

## Theorems

* `Front.process_agenda`, `Front.offerAll_agenda`: The agenda is not looked at.
* `WorksOff.waiting`: An item that expects a terminal is taken off, and nothing
  else happens.
* `WorksOff.listing`: An agenda with more items that wait is worked off too.
-/

namespace EarleyForest

variable {T N : Type}

namespace Front

variable {g : Grammar T N}

/-- Which items are taken in does not depend on the agenda. -/
theorem offerAll_agenda [DecidableEq T] (items : List Item) (s : Front T N) :
    ∃ added, ∀ agenda, ({ s with agenda } : Front T N).offerAll g items =
      ({ s with agenda } : Front T N).taking g added := by
  induction items generalizing s with
  | nil => exact ⟨[], fun agenda => (taking_nil g _).symm⟩
  | cons item rest ih =>
      have hrun : ∀ s : Front T N,
          s.offerAll g (item :: rest) = (s.offer g item).offerAll g rest := fun _ => rfl
      -- The item is taken in with each agenda or with none.
      rcases offer_spec (g := g) s item with ⟨_, hnew, hviable⟩ | ⟨_, hthere⟩
      · rcases ih (s.taking g [item]) with ⟨added, hadded⟩
        refine ⟨[item] ++ added, fun agenda => ?_⟩
        rcases offer_spec (g := g) { s with agenda } item with ⟨hoffer, _⟩ | ⟨_, hthere⟩
        · rw [hrun, hoffer, ← taking_taking]
          exact hadded _
        · exact absurd (hthere hviable) (Bool.eq_false_iff.mp hnew)
      · rcases ih s with ⟨added, hadded⟩
        refine ⟨added, fun agenda => ?_⟩
        rcases offer_spec (g := g) { s with agenda } item with ⟨_, hnew, hviable⟩ | ⟨hoffer, _⟩
        · exact absurd (hthere hviable) (Bool.eq_false_iff.mp hnew)
        · rw [hrun, hoffer]
          exact hadded agenda

variable [DecidableEq T] [DecidableEq N]

theorem moveAll_agenda (s : Front T N) (agenda : List Item) (right : NodeId) (f : Forest T N)
    (items : List Item) :
    ({ s with agenda } : Front T N).moveAll g right f items = s.moveAll g right f items := by
  induction items generalizing f with
  | nil => rfl
  | cons item rest ih =>
      simp only [moveAll, ih]
      rfl

/-- What an item gives rise to does not depend on the agenda. -/
theorem process_agenda (s : Front T N) (agenda : List Item) (f : Forest T N) (item : Item) :
    ({ s with agenda } : Front T N).process g f item = s.process g f item := by
  simp only [process, moveAll_agenda]
  rfl

end Front

namespace Stage

/-- The stage with another agenda. -/
def listing (s : Stage T N) (agenda : List Item) : Stage T N :=
  ⟨{ s.front with agenda }, s.forest⟩

variable [DecidableEq T] [DecidableEq N] {g : Grammar T N} {s s' : Stage T N} {items : List Item}

/-- An item that does not wait is processed in the same way whatever comes
    behind it, and what it adds comes last. -/
theorem step_listing {item : Item} {rest : List Item} (hagenda : s.front.agenda = item :: rest) :
    ∃ added, (s.step g).front.column.items = s.front.column.items ++ added ∧
      (s.step g).front.agenda = rest ++ (added.filter fun item => !item.expectsTerminal g) ∧
      ∀ more, (s.listing (item :: more)).step g =
        (s.step g).listing (more ++ added.filter fun item => !item.expectsTerminal g) := by
  rcases s with ⟨front, forest⟩
  simp only at hagenda
  rcases Front.offerAll_agenda (g := g) (front.process g forest item).offers
      { front with nullable := (front.process g forest item).nullable } with ⟨added, hadded⟩
  have hstep : Stage.step g ⟨front, forest⟩ =
      ⟨({ front with
          agenda := rest
          nullable := (front.process g forest item).nullable } : Front T N).taking g added,
        (front.process g forest item).forest⟩ := by
    simp only [Stage.step, hagenda]
    exact congrArg (Stage.mk · _) (hadded rest)
  refine ⟨added, by rw [hstep]; rfl, by rw [hstep]; rfl, fun more => ?_⟩
  rw [hstep]
  simp only [Stage.step, listing, Front.process_agenda]
  exact congrArg (Stage.mk · _) (hadded more)

/-- When an item that expects a terminal is taken off, nothing else happens. -/
theorem step_waiting {item : Item} {more : List Item} (h : item.expectsTerminal g = true) :
    (s.listing (item :: more)).step g = s.listing more := by
  rcases Item.expectsTerminal_eq_true_iff.mp h with ⟨t, ht⟩
  rw [Item.next?, Grammar.symbolAt?_eq_some_iff] at ht
  rcases ht with ⟨r, hr, hsymbol⟩
  simp only [Stage.step, listing, Front.process, hr, hsymbol]
  rfl

theorem WorksOff.waiting {waiting more : List Item}
    (hwaiting : ∀ item ∈ waiting, item.expectsTerminal g = true)
    (h : (s.listing more).WorksOff g items s') :
    (s.listing (waiting ++ more)).WorksOff g (waiting ++ items) s' := by
  induction waiting with
  | nil => exact h
  | cons item rest ih =>
      have hfirst : (s.listing (item :: rest ++ more)).front.agenda = item :: (rest ++ more) := rfl
      refine .next hfirst ?_
      rw [List.cons_append, step_waiting (hwaiting item List.mem_cons_self)]
      exact ih fun other hother => hwaiting other (List.mem_cons_of_mem _ hother)

/-- An agenda that has more items than those to process, all of which expect a
    terminal, is worked off too. Everything on it is taken off once, and so is
    what has been added to the column in the meantime, but for the items that
    expect a terminal. -/
theorem WorksOff.listing (h : s.WorksOff g items s') {agenda : List Item}
    (hagenda : (agenda.filter fun item => !item.expectsTerminal g) = s.front.agenda) :
    ∃ added, s'.front.column.items = s.front.column.items ++ added ∧
      (s.listing agenda).WorksOff g
        (agenda ++ added.filter fun item => !item.expectsTerminal g) s' := by
  -- Between two steps of the shorter agenda the longer one gives off some
  -- items that wait.
  induction h generalizing agenda with
  | @done s idle =>
      rw [idle, List.filter_eq_nil_iff] at hagenda
      have hwaiting : ∀ item ∈ agenda, item.expectsTerminal g = true := fun item hitem => by
        have hnot := hagenda item hitem
        rwa [Bool.not_eq_true, Bool.not_eq_false'] at hnot
      have hself : s.listing [] = s := by
        rw [← idle]
        rfl
      have hdone : (s.listing []).WorksOff g [] s := by
        rw [hself]
        exact .done idle
      have hall := hdone.waiting hwaiting
      rw [List.append_nil] at hall
      refine ⟨[], (List.append_nil _).symm, ?_⟩
      rw [List.filter_nil, List.append_nil]
      exact hall
  | @next s s' item rest items first later ih =>
      rw [first, List.filter_eq_cons_iff] at hagenda
      rcases hagenda with ⟨waiting, more, rfl, hwaiting, hitem, hrest⟩
      rcases step_listing (g := g) first with ⟨added, hcolumn, hnext, hstep⟩
      have hmore : ((more ++ added.filter fun item => !item.expectsTerminal g).filter
          fun item => !item.expectsTerminal g) = (s.step g).front.agenda := by
        rw [List.filter_append, hrest, List.filter_filter, hnext]
        simp only [Bool.and_self]
      rcases ih hmore with ⟨further, hlast, hworks⟩
      rw [← hstep more, List.append_assoc, ← List.filter_append] at hworks
      refine ⟨added ++ further, by rw [hlast, hcolumn, List.append_assoc], ?_⟩
      rw [List.append_assoc, List.cons_append]
      refine WorksOff.waiting (fun other hother => ?_) (.next rfl hworks)
      have hnot := hwaiting other hother
      rwa [Bool.not_eq_true, Bool.not_eq_false'] at hnot

end Stage

end EarleyForest
