import EarleyForest.Proofs.Chart.Keeping

/-!
# What the Next Terminal Decides

The terminal behind a position decides which items may wait for it there and
nothing else. Two parses that have come to a position over the same terminals
therefore have the same closed columns and the same forest, whatever comes
next. Their open columns differ at most in the items that expect a terminal.

Those items take no part in the work of the column: they are never processed,
no item moves on over a nonterminal to meet them, and none that expects
something else is kept out by them. So the two parses still agree when the
column is closed.

## Main definitions

* `Front.Agrees`, `Stage.Agrees`: The same but for items that expect a
  terminal.
* `Stage.runUpTo`: Goes through the beginning of an input.

## Theorems

* `Agrees.offerAll`, `Agrees.process_eq`, `Agrees.step`, `Agrees.close`: Two
  stages keep agreeing.
* `agrees_runUpTo`: The terminal behind a beginning makes no difference.
-/

namespace EarleyForest

variable {T N : Type}

/-- The items of a column that expect a nonterminal or nothing at all. -/
def Column.settled (g : Grammar T N) (c : Column) : List Item :=
  c.items.filter fun item => !item.expectsTerminal g

/-- Two fronts are the same but for what is behind the current position and
    for the items that expect a terminal. -/
structure Front.Agrees (g : Grammar T N) (s s' : Front T N) : Prop where
  closed : s'.closed = s.closed
  column : s'.column.settled g = s.column.settled g
  agenda : s'.agenda = s.agenda
  nullable : s'.nullable = s.nullable
  mark : s'.mark = s.mark

/-- Two stages are the same but for what is behind the current position and
    for the items that expect a terminal. -/
structure Stage.Agrees (g : Grammar T N) (s s' : Stage T N) : Prop where
  front : s.front.Agrees g s'.front
  forest : s'.forest = s.forest

namespace Column

variable {g : Grammar T N}

/-- Under the key of an item that expects no terminal, only such items are
    found. -/
theorem contains_of_settled {c c' : Column} (h : c'.settled g = c.settled g) {item : Item}
    (hitem : item.expectsTerminal g = false) :
    c'.contains item.rule item.dot item.origin = c.contains item.rule item.dot item.origin := by
  have hsettled : ∀ d : Column, d.contains item.rule item.dot item.origin = true ↔
      ∃ other ∈ d.settled g, other.key = item.key := by
    intro d
    rw [contains_eq_true_iff]
    constructor
    · rintro ⟨other, hother, hkey⟩
      refine ⟨other, List.mem_filter.mpr ⟨hother, ?_⟩, hkey⟩
      -- The key says what comes behind the dot.
      rw [Item.key, Prod.mk.injEq, Prod.mk.injEq] at hkey
      rw [Item.expectsTerminal, Item.next?, hkey.1, hkey.2.1]
      rw [Item.expectsTerminal, Item.next?] at hitem
      rw [hitem]
      rfl
    · rintro ⟨other, hother, hkey⟩
      exact ⟨other, (List.mem_filter.mp hother).1, hkey⟩
  rw [Bool.eq_iff_iff, hsettled, hsettled, h]

theorem settled_append (items added : List Item) :
    Column.settled g ⟨items ++ added⟩ = Column.settled g ⟨items⟩ ++ Column.settled g ⟨added⟩ :=
  List.filter_append _ _

theorem awaiting_of_settled [DecidableEq T] [DecidableEq N] {c c' : Column}
    (h : c'.settled g = c.settled g) (n : N) : c'.awaiting g n = c.awaiting g n := by
  -- An item that expects a nonterminal is among the others.
  have hfilter : ∀ d : Column, d.awaiting g n =
      (d.settled g).filter fun item => item.next? g = some (.nonterminal n) := by
    intro d
    rw [awaiting, settled, List.filter_filter]
    refine List.filter_congr fun item _ => ?_
    by_cases hnext : item.next? g = some (.nonterminal n)
    · rw [Item.expectsTerminal_of_nonterminal hnext, decide_eq_true hnext]
      rfl
    · rw [decide_eq_false hnext, Bool.false_and]
  rw [hfilter, hfilter, h]

end Column

namespace Front

variable {g : Grammar T N} {s s' : Front T N}

/-- What has been taken in agrees if it does so but for the items that expect
    a terminal. -/
theorem Agrees.taking (h : s.Agrees g s') {added added' : List Item}
    (hadded : (added'.filter fun item => !item.expectsTerminal g) =
      added.filter fun item => !item.expectsTerminal g) :
    (s.taking g added).Agrees g (s'.taking g added') where
  closed := h.closed
  column := by
    have hsame : Column.settled g ⟨added'⟩ = Column.settled g ⟨added⟩ := hadded
    simp only [Front.taking, Column.settled_append, hsame]
    exact congrArg (· ++ _) h.column
  agenda := by simp only [Front.taking, h.agenda, hadded]
  nullable := h.nullable
  mark := h.mark

theorem Agrees.position_eq (h : s.Agrees g s') : s'.position = s.position :=
  congrArg Array.size h.closed

/-- The columns that items may wait in agree. -/
theorem Agrees.settled_columnAt (h : s.Agrees g s') (j : Nat) :
    (s'.columnAt j).settled g = (s.columnAt j).settled g := by
  unfold columnAt
  rw [h.closed]
  cases s.closed[j]? with
  | none => exact h.column
  | some c => rfl

section

variable [DecidableEq T]

/-- What comes of an offer, but for items that expect a terminal, does not
    depend on the terminal that comes next. -/
theorem Agrees.offer (h : s.Agrees g s') (item : Item) :
    (s.offer g item).Agrees g (s'.offer g item) := by
  -- What an offer adds is the item or nothing.
  have hadds : ∀ t : Front T N, ∃ added, t.offer g item = t.taking g added ∧
      (added = [item] ∧ t.column.contains item.rule item.dot item.origin = false ∨
        added = [] ∧ (item.expectsTerminal g = false →
          t.column.contains item.rule item.dot item.origin = true)) := by
    intro t
    rcases offer_spec (g := g) t item with ⟨hoffer, hnew, _⟩ | ⟨hoffer, hthere⟩
    · exact ⟨[item], hoffer, Or.inl ⟨rfl, hnew⟩⟩
    · refine ⟨[], by rw [hoffer, taking_nil], Or.inr ⟨rfl, fun hitem => hthere fun x hx => ?_⟩⟩
      rw [Item.expectsTerminal_eq_true_iff.mpr ⟨x, hx⟩] at hitem
      cases hitem
  rcases hadds s with ⟨added, hoffer, hcase⟩
  rcases hadds s' with ⟨added', hoffer', hcase'⟩
  rw [hoffer, hoffer']
  refine h.taking ?_
  cases hitem : item.expectsTerminal g with
  | true =>
      -- The item is not counted, whether it is taken in or not.
      have hnone : ∀ l : List Item, l = [item] ∨ l = [] →
          (l.filter fun item => !item.expectsTerminal g) = [] := by
        rintro l (rfl | rfl)
        · rw [List.filter_cons, hitem]
          rfl
        · rfl
      rw [hnone added' (hcase'.imp And.left And.left), hnone added (hcase.imp And.left And.left)]
  | false =>
      -- Both columns have the key or neither does.
      have hsame := Column.contains_of_settled h.column hitem
      rcases hcase with ⟨rfl, hnew⟩ | ⟨rfl, hthere⟩
      · rcases hcase' with ⟨rfl, _⟩ | ⟨_, hthere'⟩
        · rfl
        · rw [hthere' hitem, hnew] at hsame
          cases hsame
      · rcases hcase' with ⟨_, hnew'⟩ | ⟨rfl, _⟩
        · rw [hnew', hthere hitem] at hsame
          cases hsame
        · rfl

theorem Agrees.offerAll (h : s.Agrees g s') (items : List Item) :
    (s.offerAll g items).Agrees g (s'.offerAll g items) := by
  induction items generalizing s s' with
  | nil => exact h
  | cons item rest ih => exact ih (h.offer item)

end

variable [DecidableEq T] [DecidableEq N]

theorem Agrees.join_eq (h : s.Agrees g s') (f : Forest T N) (item : Item) (right : NodeId) :
    s'.join g f item right = s.join g f item right := by
  rw [join, join, h.mark, h.position_eq]

theorem Agrees.moveAll_eq (h : s.Agrees g s') (right : NodeId) (items : List Item)
    (f : Forest T N) : s'.moveAll g right f items = s.moveAll g right f items := by
  induction items generalizing f with
  | nil => rfl
  | cons item rest ih => simp only [moveAll, h.join_eq, ih]

theorem Agrees.complete_eq (h : s.Agrees g s') (f : Forest T N) (head : N) (item : Item) :
    s'.complete f head item = s.complete f head item := by
  rw [complete, complete, h.mark, h.position_eq]

/-- An item gives rise to the same in both. -/
theorem Agrees.process_eq (h : s.Agrees g s') (f : Forest T N) (item : Item) :
    s'.process g f item = s.process g f item := by
  have hawaiting : ∀ n, (s'.columnAt item.origin).awaiting g n =
      (s.columnAt item.origin).awaiting g n :=
    Column.awaiting_of_settled (h.settled_columnAt item.origin)
  simp only [process, h.nullable, h.position_eq, h.moveAll_eq, h.complete_eq, hawaiting]

end Front

namespace Stage

variable [DecidableEq T] [DecidableEq N] {g : Grammar T N} {s s' : Stage T N}

theorem Agrees.step (h : s.Agrees g s') : (s.step g).Agrees g (s'.step g) := by
  rcases s with ⟨front, forest⟩
  rcases s' with ⟨front', forest'⟩
  rcases h with ⟨hfront, hforest⟩
  simp only at hfront hforest
  subst hforest
  cases hagenda : front.agenda with
  | nil =>
      have hagenda' := hfront.agenda.trans hagenda
      simp only [Stage.step, hagenda, hagenda']
      exact ⟨hfront, rfl⟩
  | cons item rest =>
      have hagenda' := hfront.agenda.trans hagenda
      simp only [Stage.step, hagenda, hagenda', hfront.process_eq]
      refine ⟨Front.Agrees.offerAll ?_ _, rfl⟩
      exact ⟨hfront.closed, hfront.column, rfl, rfl, hfront.mark⟩

/-- Two stages that agree still do so when their columns are closed. -/
theorem Agrees.close (h : s.Agrees g s') : (s.close g).Agrees g (s'.close g) := by
  have hcapacity : capacity g s'.front.position = capacity g s.front.position := by
    rw [h.front.position_eq]
  rw [Stage.close, Stage.close, hcapacity]
  generalize capacity g s.front.position = n
  induction n generalizing s s' with
  | zero => exact h
  | succ n ih =>
      have hempty : s'.front.agenda.isEmpty = s.front.agenda.isEmpty := by rw [h.front.agenda]
      simp only [stepFor, hempty]
      split
      · exact h
      · exact ih h.step (by rw [h.step.front.position_eq])

/-- The stage at position zero does not depend on what comes first. -/
theorem agrees_start (g : Grammar T N) (next next' : Option T) :
    (start g next : Stage T N).Agrees g (start g next') := by
  have hblank : (Front.blank next #[] 0 : Front T N).Agrees g (.blank next' #[] 0) :=
    ⟨rfl, rfl, rfl, rfl, rfl⟩
  exact ⟨hblank.offerAll _, rfl⟩

/-- The stage behind a terminal does not depend on what comes after it. -/
theorem agrees_shift (g : Grammar T N) (s : Stage T N) (terminal : T) (next next' : Option T) :
    (s.shift g terminal next).Agrees g (s.shift g terminal next') := by
  rcases s with ⟨front, forest⟩
  have hblank : (front.following next forest.size).Agrees g (front.following next' forest.size) :=
    ⟨rfl, rfl, rfl, rfl, rfl⟩
  -- The same items move on in both, and are offered to both.
  have hmove := hblank.moveAll_eq forest.size front.shifting
    (forest.grow (.terminal terminal)
      ⟨front.position, (front.following next forest.size).position⟩)
  have hoffer := hblank.offerAll ((front.following next forest.size).moveAll g forest.size
    (forest.grow (.terminal terminal)
      ⟨front.position, (front.following next forest.size).position⟩) front.shifting).1
  refine ⟨?_, congrArg Prod.snd hmove⟩
  have hitems := congrArg Prod.fst hmove
  exact Eq.subst (motive := fun items => Front.Agrees g _
    ((front.following next' forest.size).offerAll g items)) hitems.symm hoffer

/-- Goes through the beginning of an input, given the terminal behind it. The
    column there is left open. -/
def runUpTo (g : Grammar T N) (next : Option T) : Stage T N → List T → Stage T N
  | s, [] => s
  | s, terminal :: rest =>
    runUpTo g next ((s.close g).shift g terminal (rest.head?.or next)) rest

theorem run_append (g : Grammar T N) (s : Stage T N) (first rest : List T) :
    s.run g (first ++ rest) = (runUpTo g rest.head? s first).run g rest := by
  induction first generalizing s with
  | nil => rfl
  | cons t first ih =>
      have hhead : (first ++ rest).head? = first.head?.or rest.head? := by
        rw [List.head?_append]
      rw [List.cons_append, run, ih, hhead]
      rfl

/-- The stage behind the beginning of an input does not depend on what comes
    after it. -/
theorem agrees_runUpTo (g : Grammar T N) (next next' : Option T) (first : List T) :
    (runUpTo g next (start g (first.head?.or next)) first).Agrees g
      (runUpTo g next' (start g (first.head?.or next')) first) := by
  -- Only the last column has been opened with the one terminal or the other.
  have hrun : ∀ s : Stage T N, first ≠ [] →
      (runUpTo g next s first).Agrees g (runUpTo g next' s first) := by
    induction first with
    | nil => exact fun _ hne => absurd rfl hne
    | cons t rest ih =>
        intro s _
        cases rest with
        | nil => exact agrees_shift g _ t next next'
        | cons t' rest => exact ih _ (List.cons_ne_nil _ _)
  cases first with
  | nil => exact agrees_start g next next'
  | cons t rest => exact hrun _ (List.cons_ne_nil _ _)

end Stage

end EarleyForest
