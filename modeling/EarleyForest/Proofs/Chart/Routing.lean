import EarleyForest.Chart.Routing
import EarleyForest.Proofs.Chart.Worklist

/-!
# The Places Where Items Are Routed Agree

Items are routed in three ways, and the three agree with the way in which
offers are taken in. For the open column this is a matter of what is looked at
first. For a column that is not open yet the items are routed without an
agenda, so what comes of them is the column of the offers, with all of its
items on the agenda.

A shift that looks at its items stops at the first one that does not expect
the terminal. If there is none, it is the shift that does not look.

## Theorems

* `update_eq_offer`, `fill_offerAll`: Routing is taking offers in.
* `shiftAll?_eq_ok`, `shiftAll?_eq_error`: What looking at the items comes to.
* `begin_eq`, `leave_eq_close`, `shift?_eq_ok`: The parts of a parse, with
  routed items.
* `exists_shift?_iff`: Which stages are shifted.
-/

namespace EarleyForest

variable {T N : Type}

namespace Front

variable [DecidableEq T] {g : Grammar T N}

/-- An item is taken into the open column in the same way whether it is looked
    for there first or what it expects is looked at first. -/
theorem update_eq_offer (g : Grammar T N) (s : Front T N) (item : Item) :
    s.update g item = s.offer g item := by
  cases hnext : item.next? g with
  | none => simp only [update, offer, hnext]
  | some symbol =>
      cases symbol with
      | nonterminal n => simp only [update, offer, hnext]
      | terminal t =>
          simp only [update, offer, hnext]
          by_cases hthere : s.column.contains item.rule item.dot item.origin = true
          · rw [if_pos hthere, if_neg fun h => absurd (h.2.symm.trans hthere) Bool.false_ne_true]
          · rw [if_neg hthere]
            rw [Bool.not_eq_true] at hthere
            simp only [hthere, and_true]

/-- A column that is not open yet takes an item in as it does when it is open,
    but for the agenda. -/
theorem put_eq (s : Front T N) (item : Item) :
    Intake.put g s.lookahead ⟨s.column, s.shifting⟩ item =
      ⟨(s.offer g item).column, (s.offer g item).shifting⟩ := by
  rw [← update_eq_offer]
  unfold Intake.put update
  split
  · split
    · rfl
    · rfl
  · split
    · rfl
    · rfl

/-- A column opened with items that have been routed before has the items that
    it has when they are offered, and all of them are on the agenda. -/
theorem fill_offerAll (items : List Item) (s : Front T N) :
    s.fill (items.foldl (Intake.put g s.lookahead) ⟨s.column, s.shifting⟩) =
      { s.offerAll g items with agenda := (s.offerAll g items).column.items } := by
  induction items generalizing s with
  | nil => rfl
  | cons item rest ih =>
      have hfill : ∀ intake, (s.offer g item).fill intake = s.fill intake ∧
          (s.offer g item).lookahead = s.lookahead := by
        intro intake
        rcases offer_spec (g := g) s item with ⟨hoffer, _⟩ | ⟨hoffer, _⟩
        · rw [hoffer]
          exact ⟨rfl, rfl⟩
        · rw [hoffer]
          exact ⟨rfl, rfl⟩
      have hrest := ih (s.offer g item)
      rw [(hfill _).1, (hfill ⟨.empty, []⟩).2] at hrest
      rw [List.foldl_cons, put_eq]
      exact hrest

variable [DecidableEq N]

/-- Items that expect the terminal are moved on over its leaf and routed one
    after the other. The forest has no part in the routing. -/
theorem shiftAll?_eq_ok {s : Front T N} {terminal : T} {leaf : NodeId} {items : List Item}
    (h : ∀ item ∈ items, item.next? g = some (.terminal terminal)) (intake : Intake)
    (f : Forest T N) : s.shiftAll? g terminal leaf intake f items =
      .ok ((s.moveAll g leaf f items).1.foldl (Intake.put g s.lookahead) intake,
        (s.moveAll g leaf f items).2) := by
  induction items generalizing intake f with
  | nil => rfl
  | cons item rest ih =>
      rw [shiftAll?, if_pos (h item List.mem_cons_self)]
      exact ih (fun other hother => h other (List.mem_cons_of_mem _ hother)) _ _

/-- The first item that does not expect the terminal is reported. -/
theorem shiftAll?_eq_error {s : Front T N} {terminal : T} {leaf : NodeId}
    {first rest : List Item} {item : Item}
    (hfirst : ∀ other ∈ first, other.next? g = some (.terminal terminal))
    (hitem : item.next? g ≠ some (.terminal terminal)) (intake : Intake) (f : Forest T N) :
    s.shiftAll? g terminal leaf intake f (first ++ item :: rest) =
      .error ⟨item, terminal, s.position - 1, item.next? g, g.rules[item.rule]?⟩ := by
  induction first generalizing intake f with
  | nil => rw [List.nil_append, shiftAll?, if_neg hitem]
  | cons other first ih =>
      rw [List.cons_append, shiftAll?, if_pos (hfirst other List.mem_cons_self)]
      exact ih (fun other hother => hfirst other (List.mem_cons_of_mem _ hother)) _ _

end Front

namespace Stage

variable [DecidableEq T] [DecidableEq N] {g : Grammar T N}

/-- With routed items a parse starts as it does with offers, but all items of
    the first column are on the agenda. -/
theorem begin_eq (g : Grammar T N) (lookahead : Option T) :
    begin g lookahead =
      (start g lookahead).listing (start g lookahead : Stage T N).front.column.items :=
  congrArg (Stage.mk · _) (Front.fill_offerAll _ (Front.blank lookahead #[] 0))

theorem attend_eq_step (g : Grammar T N) (s : Stage T N) : s.attend g = s.step g := by
  have hupdate : Front.update g = Front.offer g :=
    funext fun s => funext fun item => Front.update_eq_offer g s item
  rcases s with ⟨front, forest⟩
  cases hagenda : front.agenda with
  | nil => simp only [attend, step, hagenda]
  | cons item rest => simp only [attend, step, hagenda, Front.offerAll, hupdate]

theorem leave_eq_close (g : Grammar T N) (s : Stage T N) : s.leave g = s.close g := by
  have hfor : ∀ n (s : Stage T N), s.attendFor g n = s.stepFor g n := by
    intro n
    induction n with
    | zero => exact fun _ => rfl
    | succ n ih =>
        intro s
        rw [attendFor, stepFor, attend_eq_step, ih]
  exact hfor _ s

/-- If all items that wait for the shift expect the terminal, the next column
    is opened as it is with offers, but all of its items are on the agenda. -/
theorem shift?_eq_ok {s : Stage T N} {terminal : T} (lookahead : Option T)
    (h : ∀ item ∈ s.front.shifting, item.next? g = some (.terminal terminal)) :
    s.shift? g terminal lookahead = .ok ((s.shift g terminal lookahead).listing
      (s.shift g terminal lookahead).front.column.items) := by
  rcases s with ⟨front, forest⟩
  simp only at h
  simp only [shift?, Front.shiftAll?_eq_ok h]
  exact congrArg (fun front => Except.ok (Stage.mk front _))
    (Front.fill_offerAll _ (Front.blank lookahead _ _))

/-- A stage is shifted over a terminal exactly if all items that wait for the
    shift expect this terminal. -/
theorem exists_shift?_iff {s : Stage T N} {terminal : T} {lookahead : Option T} :
    (∃ s', s.shift? g terminal lookahead = .ok s') ↔
      ∀ item ∈ s.front.shifting, item.next? g = some (.terminal terminal) := by
  constructor
  · rintro ⟨s', hs'⟩
    by_contra hnot
    -- The first item that expects something else would have been reported.
    have hsome : (s.front.shifting.find? fun item =>
        item.next? g ≠ some (.terminal terminal)).isSome = true := by
      rw [List.find?_isSome]
      push Not at hnot
      simpa only [decide_eq_true_eq] using hnot
    rcases Option.isSome_iff_exists.mp hsome with ⟨item, hfind⟩
    rcases List.find?_eq_some_iff_append.mp hfind with ⟨hitem, first, rest, hsplit, hfirst⟩
    rcases s with ⟨front, forest⟩
    simp only at hsplit
    simp only [decide_eq_true_eq] at hitem
    have hbefore : ∀ other ∈ first, other.next? g = some (.terminal terminal) := by
      intro other hother
      have hnot := hfirst other hother
      rwa [Bool.not_eq_true', decide_eq_false_iff_not, not_not] at hnot
    simp only [shift?, hsplit, Front.shiftAll?_eq_error hbefore hitem] at hs'
    cases hs'
  · intro h
    exact ⟨_, shift?_eq_ok lookahead h⟩

end Stage

end EarleyForest
