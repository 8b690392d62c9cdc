import EarleyForest.Proofs.Chart.Course

/-!
# The Step to the Next Position

When no item of the open column is left to process, a leaf is made for the
next terminal and a blank column is opened behind it. The items that waited
for that terminal move on over the leaf and are offered to the blank column.

That keeps the invariant. The items of the column that is closed count as
handled from now on, whether they have been processed or have waited for the
shift, and those of the new column do not count yet.

## Main definitions

* `Front.following`: A blank column behind the open one.
* `Stage.Shifted`: What has been done when the next column has been opened.

## Theorems

* `moveAll_shifting`, `shift_spec`: What a shift makes, and what it takes in.
* `shifted_shift`, `Shifted.worked`: A shift does what the waiting items give
  rise to.
* `Invariant.shift`: A shift keeps the invariant.
-/

namespace EarleyForest

variable {T N : Type}

namespace Front

/-- The open column closed, and a blank one opened behind it. -/
def following (s : Front T N) (lookahead : Option T) (mark : Nat) : Front T N :=
  .blank lookahead (s.closed.push s.column) mark

theorem following_position (s : Front T N) (lookahead : Option T) (mark : Nat) :
    (s.following lookahead mark).position = s.position + 1 := Array.size_push _

/-- The columns up to the one closed are as they were. -/
theorem columnAt_following (s : Front T N) (lookahead : Option T) (mark : Nat) {j : Nat}
    (hj : j ≤ s.position) : (s.following lookahead mark).columnAt j = s.columnAt j := by
  rcases Nat.lt_or_eq_of_le hj with hlt | rfl
  · simp only [following, columnAt, blank, Array.getElem?_push_lt hlt, Option.getD_some,
      Array.getElem?_eq_getElem hlt]
  · rw [columnAt_position]
    simp only [following, columnAt, blank, position, Array.getElem?_push_size, Option.getD_some]

/-- All items are in the columns up to the one closed. -/
theorem mem_columnAt_following {s : Front T N} {lookahead : Option T} {mark j : Nat} {item : Item}
    (hj : j ≤ (s.following lookahead mark).position)
    (h : item ∈ ((s.following lookahead mark).columnAt j).items) :
    j ≤ s.position ∧ item ∈ (s.columnAt j).items := by
  by_cases hle : j ≤ s.position
  · rw [columnAt_following s _ _ hle] at h
    exact ⟨hle, h⟩
  · rw [following_position] at hj
    have hlast : j = (s.following lookahead mark).position := by
      rw [following_position]
      omega
    rw [hlast, columnAt_position] at h
    exact absurd h List.not_mem_nil

end Front

namespace Stage

variable [DecidableEq T] [DecidableEq N] {g : Grammar T N} {input : List T} {s : Stage T N}
  {done : List Item}

omit [DecidableEq T] in
/-- With a blank column behind the open one everything stays true. -/
theorem Sound.following {front : Front T N} {forest forest' : Forest T N} {mark : Nat}
    (h : (⟨front, forest⟩ : Stage T N).Sound g input) (hlt : front.position < input.length)
    (hgrows : forest.Grows forest') (hopen : forest'.Open g input mark (front.position + 1)) :
    (⟨front.following input[front.position + 1]? mark, forest'⟩ : Stage T N).Sound g input := by
  have hposition := Front.following_position front input[front.position + 1]? mark
  refine ⟨?_, ?_, ?_, fun n v hv => ?_, fun hj hitem => ?_, fun hj hitem => ?_, fun {j} hj => ?_⟩
  · exact Nat.le_trans (Nat.le_of_eq hposition) hlt
  · exact (congrArg (fun j => input[j]?) hposition).symm
  · rw [← hposition] at hopen
    exact hopen
  · cases hv
  · rcases Front.mem_columnAt_following hj hitem with ⟨hle, hold⟩
    exact (h.found hle hold).grows hgrows
  · rcases Front.mem_columnAt_following hj hitem with ⟨hle, hold⟩
    exact h.viable hle hold
  · by_cases hle : j ≤ front.position
    · have hold := h.distinct hle
      rwa [← Front.columnAt_following front input[front.position + 1]? mark hle] at hold
    · have hlast : j = (front.following input[front.position + 1]? mark).position :=
        Nat.le_antisymm hj (by rw [hposition]; omega)
      simp only [hlast, Front.columnAt_position]
      exact Column.distinct_empty

/-- What has been done when the next column has been opened. -/
structure Shifted (g : Grammar T N) (input : List T) (done : List Item) (t : T)
    (s s' : Stage T N) : Prop where
  position : s'.front.position = s.front.position + 1
  grows : s.forest.Grows s'.forest
  columns {j : Nat} : j ≤ s.front.position → s'.front.columnAt j = s.front.columnAt j
  handled {j : Nat} {e : Item} : j ≤ s'.front.position → s'.Handled [] j e →
    j ≤ s.front.position ∧ (e.expectsTerminal g = false → s.Handled done j e)
  moved : ∃ v, s'.forest.Has v (.terminal t) ⟨s.front.position, s.front.position + 1⟩ ∧
    ∀ e ∈ s.front.shifting, s'.Advances g input (s.front.position + 1) e v

omit [DecidableEq T] [DecidableEq N] in
theorem Shifted.extends {s' : Stage T N} {t : T} (h : Shifted g input done t s s') :
    s.Extends s' where
  columns hj := ⟨[], by rw [h.columns hj, List.append_nil]⟩
  grows := h.grows

omit [DecidableEq T] in
/-- The items that wait for the shift expect the next terminal. -/
theorem Sound.next_of_shifting (hsound : s.Sound g input) (hordered : s.Ordered g done) {t : T}
    (ht : input[s.front.position]? = some t) {item : Item} (hitem : item ∈ s.front.shifting) :
    item ∈ (s.front.columnAt s.front.position).items ∧ item.next? g = some (.terminal t) := by
  rw [hordered.shifting, List.mem_filter, ← Front.columnAt_position] at hitem
  rcases Item.expectsTerminal_eq_true_iff.mp hitem.2 with ⟨t', ht'⟩
  -- The column has taken the item in, so what it expects comes next.
  have hviable := hsound.viable (Nat.le_refl _) hitem.1 t' ht'
  rw [ht, Option.some.injEq] at hviable
  rw [hviable]
  exact ⟨hitem.1, ht'⟩

/-- The items that wait for a shift move on over a new leaf: they are found
    behind it, and the forest with the leaf and their nodes is sound. -/
theorem moveAll_shifting {front : Front T N} {forest : Forest T N}
    (hsound : (⟨front, forest⟩ : Stage T N).Sound g input)
    (hordered : (⟨front, forest⟩ : Stage T N).Ordered g done) {t : T}
    (ht : input[front.position]? = some t) {blank : Front T N}
    (hblank : front.following input[front.position + 1]? forest.size = blank) :
    ∃ moved forest', blank.moveAll g forest.size
        (forest.grow (.terminal t) ⟨front.position, blank.position⟩) front.shifting =
          (moved, forest') ∧ forest.Grows forest' ∧
      forest'.Open g input forest.size blank.position ∧
      forest'.Has forest.size (.terminal t) ⟨front.position, blank.position⟩ ∧
      (∀ item ∈ moved, item.Found g input forest' blank.position) ∧
      moved.map Item.key = front.shifting.map Item.keyAfter ∧
      ∀ item ∈ front.shifting, forest'.Records g item forest.size blank.position := by
  have hposition : blank.position = front.position + 1 := by
    rw [← hblank, Front.following_position]
  have hopen := Forest.open_grow_leaf hsound.forest ht
  have hgrow := Forest.grows_grow forest (.terminal t) ⟨front.position, front.position + 1⟩
  have hhas := Forest.has_grow forest (.terminal t) ⟨front.position, front.position + 1⟩
  simp only [← hposition] at hopen hgrow hhas
  have hmark : blank.mark = forest.size := by rw [← hblank]; rfl
  have hshifting : ∀ item ∈ front.shifting, item ∈ (front.columnAt front.position).items ∧
      item.next? g = some (.terminal t) := fun item => hsound.next_of_shifting hordered ht
  rcases Front.moveAll_spec (s := blank) (.terminal t) front.shifting _ (hmark ▸ hopen) hhas
      (fun item hitem => (hsound.found (Nat.le_refl _) (hshifting item hitem).1).grows hgrow)
      (fun item hitem => (hshifting item hitem).2) with
    ⟨moved, forest', hmove, hgrow', hopen', hmoved, hkeys, hrecords⟩
  exact ⟨moved, forest', hmove, hgrow.trans hgrow', hmark ▸ hopen', hhas.grows hgrow', hmoved,
    hkeys, hrecords⟩

/-- A shift makes a leaf, and the items that waited for it are offered to the
    next column with their dots moved on over the leaf. -/
theorem shift_spec {front : Front T N} {forest : Forest T N}
    (hsound : (⟨front, forest⟩ : Stage T N).Sound g input)
    (hordered : (⟨front, forest⟩ : Stage T N).Ordered g done) {t : T}
    (ht : input[front.position]? = some t) {blank : Front T N}
    (hblank : front.following input[front.position + 1]? forest.size = blank) :
    ∃ added forest', Stage.shift g t input[front.position + 1]? ⟨front, forest⟩ =
        ⟨blank.taking g added, forest'⟩ ∧ forest.Grows forest' ∧
      forest'.Open g input forest.size blank.position ∧
      forest'.Has forest.size (.terminal t) ⟨front.position, blank.position⟩ ∧
      (∀ item ∈ added, item.Found g input forest' blank.position ∧
        g.Viable blank.lookahead item.rule item.dot) ∧
      (blank.taking g added).column.Distinct ∧
      ∀ item ∈ front.shifting,
        (⟨blank.taking g added, forest'⟩ : Stage T N).Advances g input blank.position item
          forest.size := by
  -- The leaf is there first. Then the items move on over it and are offered.
  rcases moveAll_shifting hsound hordered ht hblank with
    ⟨moved, forest', hmove, hgrows, hopen, hhas, hmoved, hkeys, hrecords⟩
  rcases Front.offerAll_spec (g := g) moved blank with ⟨added, hoffer, hadded, hdistinct, htaken⟩
  refine ⟨added, forest', ?_, hgrows, hopen, hhas,
    fun item hitem => ⟨hmoved item (hadded item hitem).1, (hadded item hitem).2⟩,
    hdistinct ?_, fun item hitem => ⟨?_, hrecords item hitem⟩⟩
  · rw [← hoffer, ← hblank]
    rw [← hblank, Front.following] at hmove
    simp only [Stage.shift, hmove]
    rfl
  · rw [← hblank]
    exact Column.distinct_empty
  · have hlookahead : blank.lookahead = input[blank.position]? := by
      rw [← hblank, Front.following_position]
      rfl
    have hkey : item.keyAfter ∈ moved.map Item.key := by
      rw [hkeys]
      exact List.mem_map_of_mem hitem
    exact takes_of_offered forest' rfl hlookahead htaken (List.mem_map.mp hkey)

/-- The next column opened: everything is true and in order, and the items that
    waited have moved on over a new leaf. -/
theorem shifted_shift (hsound : s.Sound g input) (hordered : s.Ordered g done)
    (hagenda : s.front.agenda = []) {t : T} (ht : input[s.front.position]? = some t) :
    (s.shift g t input[s.front.position + 1]?).Sound g input ∧
      (s.shift g t input[s.front.position + 1]?).Ordered g [] ∧
      Shifted g input done t s (s.shift g t input[s.front.position + 1]?) := by
  rcases s with ⟨front, forest⟩
  rcases shift_spec hsound hordered ht rfl with
    ⟨added, forest', hshift, hgrows, hopen, hhas, hadded, hdistinct, hadvances⟩
  have hposition := Front.following_position front input[front.position + 1]? forest.size
  have hcolumns : ∀ {j : Nat}, j ≤ front.position →
      ((front.following input[front.position + 1]? forest.size).taking g added).columnAt j =
        front.columnAt j := by
    intro j hj
    rw [Front.columnAt_taking_of_lt g _ added (by omega)]
    exact Front.columnAt_following front _ _ hj
  have hlt : front.position < input.length := (List.getElem?_eq_some_iff.mp ht).1
  simp only [hposition] at hopen hhas hadvances
  rw [hshift]
  refine ⟨(hsound.following hlt hgrows hopen).taking hadded hdistinct,
    Ordered.taking ⟨rfl, rfl⟩ added, hposition, hgrows, hcolumns, fun {j e} hj he => ?_,
    forest.size, hhas, hadvances⟩
  -- No item of the new column has been processed yet.
  have hle : j ≤ front.position := by
    rcases Nat.lt_or_eq_of_le hj with hlt' | hlast
    · exact Nat.le_of_lt_succ (Nat.lt_of_lt_of_eq hlt' hposition)
    · exact absurd (he.2 hlast) List.not_mem_nil
  have hitem := he.1
  simp only [hcolumns hle] at hitem
  exact ⟨hle, handled_of_agenda_nil hordered hagenda hitem⟩

omit [DecidableEq T] in
/-- What the items that moved on over the leaf give rise to has been done, and
    what was done before stays. -/
theorem Shifted.worked {s' : Stage T N} {t : T} (h : Shifted g input done t s s')
    (hsound : s.Sound g input) (hordered : s.Ordered g done) (hworked : s.Worked g input done)
    (ht : input[s.front.position]? = some t) : s'.Worked g input [] := by
  have hextends := h.extends
  have hle : ∀ {j : Nat}, j < s'.front.position → j ≤ s.front.position := by
    intro j hj
    rw [h.position] at hj
    exact Nat.le_of_lt_succ hj
  refine ⟨fun hrule => (hworked.started hrule).extends hextends (Nat.zero_le _), ?_, ?_, ?_, ?_,
    fun hitem => absurd hitem List.not_mem_nil⟩
  · intro j item n hj hitem hnext rule hrule
    rcases h.handled hj hitem with ⟨hj', hold⟩
    exact (hworked.predicted hj' (hold (Item.expectsTerminal_of_nonterminal hnext)) hnext rule
      hrule).extends hextends hj'
  · intro j item r hj hitem hr hend
    rcases h.handled hj hitem with ⟨hj', hold⟩
    have hnext : item.next? g = none := (Grammar.symbolAt?_of_rule hr item.dot).trans hend
    have hitem' := hold (Item.expectsTerminal_of_complete hnext)
    rcases hworked.completed hj' hitem' hr hend with ⟨v, hv, hempty, hadvances⟩
    refine ⟨v, hv.grows hextends.grows, fun hnil => (hempty hnil).grows hextends.grows,
      fun e he hawaits => ?_⟩
    -- The items that wait for the head are in a column that is closed as well.
    have horigin : item.origin ≤ j := (hsound.found hj' hitem'.1).matched.le
    rcases h.handled (Nat.le_trans horigin hj) he with ⟨_, hwait⟩
    exact (hadvances e (hwait (Item.expectsTerminal_of_nonterminal hawaits)) hawaits).extends
      hextends hj'
  · intro j item t' hj hitem hnext
    have hmem := hitem
    rw [h.columns (hle hj)] at hmem
    rcases Nat.lt_or_eq_of_le (hle hj) with hlt | rfl
    · rcases hworked.shifted hlt hmem hnext with ⟨v, hv, hadvances⟩
      exact ⟨v, hv.grows hextends.grows, hadvances.extends hextends hlt⟩
    · -- The item is one of those that have just moved on over the leaf.
      rcases h.moved with ⟨v, hv, hmoved⟩
      have hwaits : item ∈ s.front.shifting := by
        rw [hordered.shifting, List.mem_filter, ← Front.columnAt_position]
        exact ⟨hmem, Item.expectsTerminal_eq_true_iff.mpr ⟨t', hnext⟩⟩
      have hterminal := (hsound.next_of_shifting hordered ht hwaits).2
      rw [hnext, Option.some.injEq, Symbol.terminal.injEq] at hterminal
      rw [hterminal]
      exact ⟨v, hv, hmoved item hwaits⟩
  · intro j t' hj ht'
    rcases Nat.lt_or_eq_of_le (hle hj) with hlt | rfl
    · rcases hworked.leaves hlt ht' with ⟨v, hv⟩
      exact ⟨v, hv.grows hextends.grows⟩
    · -- The leaf is the one that has just been made.
      rw [ht, Option.some.injEq] at ht'
      rw [← ht']
      rcases h.moved with ⟨v, hv, _⟩
      exact ⟨v, hv⟩

/-- The column before the open one is closed with an empty agenda, and the
    items in it that expect the terminal there move on into the open one. -/
theorem Invariant.shift (h : s.Invariant g input done) (hagenda : s.front.agenda = []) {t : T}
    (ht : input[s.front.position]? = some t) :
    (s.shift g t input[s.front.position + 1]?).Invariant g input [] ∧
      (s.shift g t input[s.front.position + 1]?).front.position = s.front.position + 1 := by
  rcases shifted_shift h.sound h.ordered hagenda ht with ⟨hsound, hordered, hshifted⟩
  exact ⟨⟨hsound, hordered, hshifted.worked h.sound h.ordered h.worked ht⟩, hshifted.position⟩

end Stage

end EarleyForest
