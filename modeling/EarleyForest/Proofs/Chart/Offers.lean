import EarleyForest.Proofs.Chart.Closing

/-!
# Every Offer of a Parse

A column drops an item whose rule, dot and origin it has already, whatever
node the item comes with. Nothing is lost by this, because the node is the
same: an item that is found at a position has the one node of its label and
span, and the label is told by the rule and the dot.

To say so of each item that is ever offered, the offers that a parse makes are
listed in their order, each with the column as it is when the offer is made.
They make up the columns: an item is in a column if and only if it has been
offered there and does not expect a terminal other than the next one.

## Main definitions

* `Offer`: An item offered to a column.
* `Grammar.offers`: The offers of a parse.
* `Front.Accounts`: What some offers have come to.

## Theorems

* `Item.Found.eq_of_key`: Found items are told apart by their keys.
* `Accounts.offerAll`: What more offers come to.
* `Accounts.step`, `Accounts.shift`, `Accounts.run`: The offers of a parse
  account for its columns.
-/

namespace EarleyForest

variable {T N : Type}

/-- An item offered to the column at a position, as the column is then. -/
structure Offer where
  position : Nat
  column : Column
  item : Item
deriving DecidableEq

section

variable [DecidableEq T]

/-- Offers made one after the other, each to the column that the ones before
    it have left. -/
def Front.offersOf (g : Grammar T N) (s : Front T N) : List Item → List Offer
  | [] => []
  | item :: rest => ⟨s.position, s.column, item⟩ :: (s.offer g item).offersOf g rest

variable [DecidableEq N]

namespace Stage

/-- The offers made when the first item of the agenda is processed. -/
def stepOffers (g : Grammar T N) : Stage T N → List Offer
  | ⟨front, forest⟩ =>
    match front.agenda with
    | [] => []
    | item :: rest =>
      let ⟨offers, nullable, _⟩ := front.process g forest item
      { front with agenda := rest, nullable }.offersOf g offers

/-- The offers made by a number of steps. -/
def stepForOffers (g : Grammar T N) : Nat → Stage T N → List Offer
  | 0, _ => []
  | n + 1, s =>
    if s.front.agenda.isEmpty then [] else s.stepOffers g ++ stepForOffers g n (s.step g)

/-- The offers made until the open column can be closed. -/
def closeOffers (g : Grammar T N) (s : Stage T N) : List Offer :=
  s.stepForOffers g (capacity g s.front.position)

/-- The offers made to the column behind the next terminal when it is
    opened. -/
def shiftOffers (g : Grammar T N) (terminal : T) (lookahead : Option T) :
    Stage T N → List Offer
  | ⟨front, forest⟩ =>
    let leaf := forest.size
    let blank : Front T N := .blank lookahead (front.closed.push front.column) leaf
    let forest := forest.grow (.terminal terminal) ⟨front.position, blank.position⟩
    blank.offersOf g (blank.moveAll g leaf forest front.shifting).1

/-- The offers made from a stage on until the column behind the rest of the
    input can be closed. -/
def runOffers (g : Grammar T N) : Stage T N → List T → List Offer
  | s, [] => s.closeOffers g
  | s, terminal :: rest =>
    s.closeOffers g ++ (s.close g).shiftOffers g terminal rest.head? ++
      runOffers g ((s.close g).shift g terminal rest.head?) rest

end Stage

/-- The offers made in the course of a parse. -/
def Grammar.offers (g : Grammar T N) (input : List T) : List Offer :=
  (Front.blank input.head? #[] 0).offersOf g ((g.rulesFor g.start).map (Item.fresh 0)) ++
    (Stage.start g input.head?).runOffers g input

end

/-- Items that are found at one position, in a sound forest, are the same if
    they have the same key: the key tells the label of the match, and one node
    has that label and the span. -/
theorem Item.Found.eq_of_key {g : Grammar T N} {input : List T} {f : Forest T N}
    {item other : Item} {position : Nat} (h : item.Found g input f position)
    (hother : other.Found g input f position) (hsound : f.Sound g input)
    (hkey : item.key = other.key) : item = other := by
  rcases item with ⟨rule, dot, origin, node⟩
  rcases other with ⟨rule', dot', origin', node'⟩
  rw [Item.key, Item.key, Prod.mk.injEq, Prod.mk.injEq] at hkey
  rcases hkey with ⟨hrule, hdot, horigin⟩
  simp only at hrule hdot horigin
  subst hrule hdot horigin
  -- Either nothing has been matched and there are no nodes, or there are both.
  cases node with
  | none =>
      have hzero : dot = 0 := h.unmade rfl
      have hnone : node' = none := hother.node_eq_none_iff.mpr hzero
      rw [hnone]
  | some id =>
      cases node' with
      | none =>
          have hzero : dot = 0 := hother.unmade rfl
          have hnone := h.node_eq_none_iff.mpr hzero
          cases hnone
      | some id' =>
          rcases h.made rfl with ⟨label, hlabel, hhas⟩
          rcases hother.made rfl with ⟨label', hlabel', hhas'⟩
          simp only at hlabel hlabel' hhas hhas'
          rw [hlabel, Option.some.injEq] at hlabel'
          subst hlabel'
          rw [hsound.unique hhas hhas']

namespace Front

section

variable [DecidableEq T] {g : Grammar T N}

theorem position_offer (g : Grammar T N) (s : Front T N) (item : Item) :
    (s.offer g item).position = s.position :=
  congrArg Array.size (closed_offerAll g s [item]).1

/-- Each item is offered, at the position of the open column. -/
theorem exists_offer {items : List Item} {s : Front T N} {item : Item} (h : item ∈ items) :
    ∃ o ∈ s.offersOf g items, o.position = s.position ∧ o.item = item := by
  induction items generalizing s with
  | nil => exact absurd h List.not_mem_nil
  | cons first rest ih =>
      rcases List.mem_cons.mp h with rfl | h
      · exact ⟨_, List.mem_cons_self, rfl, rfl⟩
      · rcases ih (s := s.offer g first) h with ⟨o, ho, hposition, hitem⟩
        rw [position_offer] at hposition
        exact ⟨o, List.mem_cons_of_mem _ ho, hposition, hitem⟩

/-- An offer is one of the items, and the column that it meets has the items
    that were there before and some of those offered. -/
theorem of_mem_offersOf {items : List Item} {s : Front T N} {o : Offer}
    (h : o ∈ s.offersOf g items) : o.position = s.position ∧ o.item ∈ items ∧
      ∀ stored ∈ o.column.items, stored ∈ s.column.items ∨ stored ∈ items := by
  induction items generalizing s with
  | nil => exact absurd h List.not_mem_nil
  | cons first rest ih =>
      rcases List.mem_cons.mp h with rfl | h
      · exact ⟨rfl, List.mem_cons_self, fun stored hstored => Or.inl hstored⟩
      · rcases ih h with ⟨hposition, hitem, hcolumn⟩
        rw [position_offer] at hposition
        refine ⟨hposition, List.mem_cons_of_mem _ hitem, fun stored hstored => ?_⟩
        rcases hcolumn stored hstored with hthere | hrest
        · -- The column has been offered the first item in the meantime.
          rcases offer_spec (g := g) s first with ⟨hoffer, _⟩ | ⟨hoffer, _⟩
          · rw [hoffer] at hthere
            rcases List.mem_append.mp hthere with hold | hnew
            · exact Or.inl hold
            · exact Or.inr (List.mem_singleton.mp hnew ▸ List.mem_cons_self)
          · rw [hoffer] at hthere
            exact Or.inl hthere
        · exact Or.inr (List.mem_cons_of_mem _ hrest)

end

/-- What some offers have come to: none met a different item of its key, those
    that do not expect a terminal other than the next one are in the columns,
    and nothing else is. -/
structure Accounts (g : Grammar T N) (input : List T) (offers : List Offer) (s : Front T N) :
    Prop where
  agree {o : Offer} {stored : Item} : o ∈ offers → stored ∈ o.column.items →
    stored.key = o.item.key → stored = o.item
  kept {o : Offer} : o ∈ offers → o.position ≤ s.position ∧
    (g.Viable input[o.position]? o.item.rule o.item.dot →
      o.item ∈ (s.columnAt o.position).items)
  offered {j : Nat} {item : Item} : j ≤ s.position → item ∈ (s.columnAt j).items →
    ∃ o ∈ offers, o.position = j ∧ o.item = item

variable [DecidableEq T] [DecidableEq N] {g : Grammar T N} {input : List T} {offers : List Offer}

/-- Offers of found items are accounted for once they have been taken in. -/
theorem Accounts.offerAll {s : Front T N} {forest : Forest T N} {items : List Item}
    (h : s.Accounts g input offers) (hlookahead : s.lookahead = input[s.position]?)
    (hsound : (⟨s.offerAll g items, forest⟩ : Stage T N).Sound g input)
    (hfound : ∀ item ∈ items, item.Found g input forest s.position) :
    (s.offerAll g items).Accounts g input (offers ++ s.offersOf g items) := by
  rcases offerAll_spec (g := g) items s with ⟨added, hoffer, hadded, _, htaken⟩
  rw [hoffer] at hsound ⊢
  have hcolumn := columnAt_taking_position g s added
  rw [columnAt_position] at hcolumn
  -- What is in the open column afterwards is found there.
  have hthere : ∀ item ∈ s.column.items ++ added, item.Found g input forest s.position := by
    intro item hitem
    refine hsound.found (Nat.le_refl s.position) ?_
    rw [hcolumn]
    exact hitem
  refine ⟨fun {o stored} ho hstored hkey => ?_, fun {o} ho => ?_, fun {j item} hj hitem => ?_⟩
  · rcases List.mem_append.mp ho with ho | ho
    · exact h.agree ho hstored hkey
    · rcases of_mem_offersOf ho with ⟨_, hitem, hmet⟩
      have hstored' : stored.Found g input forest s.position := by
        rcases hmet stored hstored with hold | hnew
        · exact hthere stored (List.mem_append_left _ hold)
        · exact hfound stored hnew
      exact hstored'.eq_of_key (hfound o.item hitem) hsound.forest.sound hkey
  · rcases List.mem_append.mp ho with ho | ho
    · rcases h.kept ho with ⟨hle, hin⟩
      refine ⟨hle, fun hviable => ?_⟩
      rcases (Stage.extends_taking g s added forest).columns hle with ⟨more, hmore⟩
      rw [hmore]
      exact List.mem_append_left _ (hin hviable)
    · rcases of_mem_offersOf ho with ⟨hposition, hitem, _⟩
      rw [hposition, ← hlookahead]
      refine ⟨Nat.le_refl s.position, fun hviable => ?_⟩
      -- The column has an item of this key, which can be no other one.
      rcases Column.contains_eq_true_iff.mp (htaken o.item hitem hviable) with
        ⟨stored, hstored, hkey⟩
      rw [← (hthere stored hstored).eq_of_key (hfound o.item hitem) hsound.forest.sound hkey,
        hcolumn]
      exact hstored
  · rcases Nat.lt_or_eq_of_le hj with hlt | rfl
    · rw [columnAt_taking_of_lt g s added hlt] at hitem
      rcases h.offered (Nat.le_of_lt hlt) hitem with ⟨o, ho, hposition, hsame⟩
      exact ⟨o, List.mem_append_left _ ho, hposition, hsame⟩
    · have hmem : item ∈ s.column.items ++ added := by
        rw [show (s.taking g added).position = s.position from rfl, hcolumn] at hitem
        exact hitem
      rcases List.mem_append.mp hmem with hold | hnew
      · rw [← columnAt_position] at hold
        rcases h.offered (Nat.le_refl s.position) hold with ⟨o, ho, hposition, hsame⟩
        exact ⟨o, List.mem_append_left _ ho, hposition, hsame⟩
      · rcases exists_offer (g := g) (s := s) (hadded item hnew).1 with ⟨o, ho, hposition, hsame⟩
        exact ⟨o, List.mem_append_right _ ho, hposition, hsame⟩

omit [DecidableEq T] [DecidableEq N] in
/-- A blank column behind the open one has no part in the offers so far. -/
theorem Accounts.following {s : Front T N} (h : s.Accounts g input offers) (lookahead : Option T)
    (mark : Nat) : (s.following lookahead mark).Accounts g input offers where
  agree := h.agree
  kept {o} ho := by
    rcases h.kept ho with ⟨hle, hin⟩
    rw [following_position, columnAt_following s lookahead mark hle]
    exact ⟨Nat.le_succ_of_le hle, hin⟩
  offered hj hitem := by
    rcases mem_columnAt_following hj hitem with ⟨hle, hold⟩
    exact h.offered hle hold

end Front

namespace Stage

variable [DecidableEq T] [DecidableEq N] {g : Grammar T N} {input : List T} {s : Stage T N}
  {done : List Item} {offers : List Offer}

/-- Before the first position is left, the rules of the start symbol have been
    offered. -/
theorem accounts_start (g : Grammar T N) (input : List T) :
    (start g input.head?).front.Accounts g input
      ((Front.blank input.head? #[] 0).offersOf g ((g.rulesFor g.start).map (Item.fresh 0))) := by
  have hblank : (Front.blank input.head? #[] 0 : Front T N).Accounts g input [] :=
    ⟨fun ho => absurd ho List.not_mem_nil, fun ho => absurd ho List.not_mem_nil,
      fun _ hitem => absurd hitem List.not_mem_nil⟩
  refine hblank.offerAll List.head?_eq_getElem? (invariant_start g input).sound
    fun item hitem => ?_
  rcases List.mem_map.mp hitem with ⟨rule, hrule, rfl⟩
  exact found_fresh .start hrule _

/-- The offers made when an item is processed are accounted for. -/
theorem Invariant.accounts_step (h : s.Invariant g input done)
    (haccounts : s.front.Accounts g input offers) {item : Item} {rest : List Item}
    (hagenda : s.front.agenda = item :: rest) :
    (s.step g).front.Accounts g input (offers ++ s.stepOffers g) := by
  have hsound' := (h.step hagenda).1.sound
  have hsound := h.sound
  have hcolumn : item ∈ s.front.column.items := by
    refine h.ordered.mem_column (List.mem_append_right _ ?_)
    rw [hagenda]
    exact List.mem_cons_self
  rcases s with ⟨front, forest⟩
  simp only at hagenda
  rw [← Front.columnAt_position] at hcolumn
  have hfound := hsound.found (Nat.le_refl front.position) hcolumn
  have hyield := (Front.process_spec hsound.forest hsound.nullable
    (fun j hj e he => hsound.found hj he) hfound).1
  simp only [Stage.step, hagenda] at hsound' ⊢
  simp only [stepOffers, hagenda]
  -- Nothing but the agenda and what is remembered is different before the
  -- offers are made.
  have hsame : ({ front with
      agenda := rest
      nullable := (front.process g forest item).nullable } : Front T N).Accounts g input offers :=
    ⟨haccounts.agree, haccounts.kept, haccounts.offered⟩
  exact hsame.offerAll hsound.lookahead hsound' fun e he => hyield.offers he

/-- The offers made when a column is closed are accounted for. -/
theorem Invariant.accounts_stepFor (n : Nat) (h : s.Invariant g input done)
    (haccounts : s.front.Accounts g input offers) :
    (s.stepFor g n).front.Accounts g input (offers ++ s.stepForOffers g n) := by
  induction n generalizing s done offers with
  | zero => rwa [stepForOffers, List.append_nil]
  | succ n ih =>
      rw [Stage.stepFor, stepForOffers]
      cases hagenda : s.front.agenda with
      | nil =>
          rw [List.isEmpty_nil, if_pos rfl, if_pos rfl, List.append_nil]
          exact haccounts
      | cons item rest =>
          rw [List.isEmpty_cons, if_neg Bool.false_ne_true, if_neg Bool.false_ne_true,
            ← List.append_assoc]
          exact ih (h.step hagenda).1 (h.accounts_step haccounts hagenda)

/-- The offers made to the column behind the next terminal are accounted
    for. -/
theorem Invariant.accounts_shift (h : s.Invariant g input done) (hagenda : s.front.agenda = [])
    (haccounts : s.front.Accounts g input offers) {t : T}
    (ht : input[s.front.position]? = some t) :
    (s.shift g t input[s.front.position + 1]?).front.Accounts g input
      (offers ++ s.shiftOffers g t input[s.front.position + 1]?) := by
  have hsound := (h.shift hagenda ht).1.sound
  rcases s with ⟨front, forest⟩
  rcases moveAll_shifting h.sound h.ordered ht rfl with
    ⟨moved, forest', hmove, _, _, _, hmoved, _⟩
  have hposition := Front.following_position front input[front.position + 1]? forest.size
  unfold Front.following at hmove hmoved hposition
  simp only [Stage.shift, hmove] at hsound ⊢
  simp only [shiftOffers, hmove]
  refine Front.Accounts.offerAll (haccounts.following _ _) ?_ hsound hmoved
  rw [hposition]
  rfl

/-- The offers made until the end of the input are accounted for. -/
theorem Invariant.accounts_run (rest : List T) (h : s.Invariant g input done)
    (hrest : input.drop s.front.position = rest) (haccounts : s.front.Accounts g input offers) :
    ((s.run g rest).close g).front.Accounts g input (offers ++ s.runOffers g rest) := by
  -- By induction on the rest of the input. A column is closed, and the next one
  -- is opened behind its terminal.
  induction rest generalizing s done offers with
  | nil => exact h.accounts_stepFor _ haccounts
  | cons t rest ih =>
      have hclosed := h.accounts_stepFor (capacity g s.front.position) haccounts
      rcases h.close with ⟨closed, hclose, hagenda, hposition⟩
      rcases h.read hrest with ⟨hread, hnext, hrest'⟩
      have ht : input[(s.close g).front.position]? = some t := by
        rw [hposition, ← List.head?_drop, hrest, List.head?_cons]
      have hshift := hclose.accounts_shift hagenda hclosed ht
      rw [hposition, ← List.head?_drop, hrest'] at hshift
      have hrun := ih hread (by rw [hnext, hrest']) hshift
      simpa only [Stage.run, runOffers, closeOffers, List.append_assoc] using hrun

/-- A parse ends with all work done and with its offers accounted for. -/
theorem parse_accounts (g : Grammar T N) (input : List T) :
    ∃ (s : Stage T N) (done : List Item), s.Settled g input done ∧ g.parse input = s.toParse g ∧
      s.front.Accounts g input (g.offers input) := by
  rcases settled_close_run g input with ⟨done, hs⟩
  refine ⟨_, done, hs, rfl,
    (invariant_start g input).accounts_run input ?_ (accounts_start g input)⟩
  rw [(position_start g _).1, List.drop_zero]

end Stage

end EarleyForest
