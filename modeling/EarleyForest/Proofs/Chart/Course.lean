import EarleyForest.Proofs.Chart.Invariant

/-!
# The Invariant Kept

What holds at every stage holds at the start, and the processing of one item
keeps it. Both end with offers to the open column, so what these do to a stage
is said first.

## Main definitions

* `Stage.Invariant`: All that holds at every stage.
* `Stage.Processed`: What has been done when an item has been processed.

## Theorems

* `Sound.taking`, `Ordered.taking`, `extends_taking`: A column takes items in.
* `processed_step`: Processing an item does what the item gives rise to.
* `Processed.completed_of_handled`, `Processed.worked`: So no work is owed to the
  items handled.
* `invariant_start`, `Invariant.step`: The start and the processing of an item
  keep the invariant.
-/

namespace EarleyForest

variable {T N : Type}

namespace Stage

section

variable {g : Grammar T N} {input : List T} {front : Front T N} {forest : Forest T N}
  {added : List Item}

theorem Sound.taking [DecidableEq N] (h : (⟨front, forest⟩ : Stage T N).Sound g input)
    (hadded : ∀ item ∈ added, item.Found g input forest front.position ∧
      g.Viable front.lookahead item.rule item.dot)
    (hdistinct : (front.taking g added).column.Distinct) :
    (⟨front.taking g added, forest⟩ : Stage T N).Sound g input := by
  have hlookahead : front.lookahead = input[front.position]? := h.lookahead
  -- An item of a column was there before or has been taken in.
  have hitems : ∀ {j : Nat} {item : Item}, j ≤ front.position →
      item ∈ ((front.taking g added).columnAt j).items →
      item ∈ (front.columnAt j).items ∨ j = front.position ∧ item ∈ added := by
    intro j item hj hitem
    rcases Nat.lt_or_eq_of_le hj with hlt | rfl
    · rw [Front.columnAt_taking_of_lt g front added hlt] at hitem
      exact Or.inl hitem
    · rw [Front.columnAt_taking_position] at hitem
      rcases List.mem_append.mp hitem with hitem | hitem
      · exact Or.inl hitem
      · exact Or.inr ⟨rfl, hitem⟩
  refine ⟨h.position_le, h.lookahead, h.forest, h.nullable, ?_, ?_, ?_⟩
  · intro j item hj hitem
    rcases hitems hj hitem with hold | ⟨hlast, hnew⟩
    · exact h.found hj hold
    · rw [hlast]
      exact (hadded item hnew).1
  · intro j item hj hitem
    rcases hitems hj hitem with hold | ⟨hlast, hnew⟩
    · exact h.viable hj hold
    · rw [hlast, ← hlookahead]
      exact (hadded item hnew).2
  · intro j hj
    rcases Nat.lt_or_eq_of_le hj with hlt | hlast
    · simp only [Front.columnAt_taking_of_lt g front added hlt]
      exact h.distinct hj
    · simp only [hlast, Front.columnAt_position]
      exact hdistinct

theorem Ordered.taking {done : List Item} (h : (⟨front, forest⟩ : Stage T N).Ordered g done)
    (added : List Item) : (⟨front.taking g added, forest⟩ : Stage T N).Ordered g done where
  agenda := by
    have hagenda : done ++ front.agenda = _ := h.agenda
    simp only [Front.taking, List.filter_append]
    rw [← List.append_assoc, hagenda]
  shifting := by
    have hshifting : front.shifting = _ := h.shifting
    simp only [Front.taking, List.filter_append]
    rw [hshifting]

theorem extends_taking (g : Grammar T N) (front : Front T N) (added : List Item)
    (forest : Forest T N) :
    (⟨front, forest⟩ : Stage T N).Extends ⟨front.taking g added, forest⟩ where
  columns {j} hj := by
    rcases Nat.lt_or_eq_of_le hj with hlt | hlast
    · exact ⟨[], by
        simp only [Front.columnAt_taking_of_lt g front added hlt, List.append_nil]⟩
    · exact ⟨added, by simp only [hlast, Front.columnAt_taking_position]⟩
  grows := .refl forest

/-- An item offered can be found in the open column afterwards. -/
theorem takes_of_offered {offers : List Item} {position : Nat} (forest : Forest T N)
    (hposition : front.position = position) (hlookahead : front.lookahead = input[position]?)
    (htaken : ∀ item ∈ offers, g.Viable front.lookahead item.rule item.dot →
      (front.taking g added).column.contains item.rule item.dot item.origin = true)
    {rule dot origin : Nat} (hitem : ∃ item ∈ offers, item.key = (rule, dot, origin)) :
    (⟨front.taking g added, forest⟩ : Stage T N).Takes g input position rule dot origin := by
  rcases hitem with ⟨item, hitem, hkey⟩
  rw [Item.key, Prod.mk.injEq, Prod.mk.injEq] at hkey
  rcases hkey with ⟨rfl, rfl, rfl⟩
  intro hviable
  rw [← hlookahead] at hviable
  rw [← hposition]
  have hcolumn := Front.columnAt_position (front.taking g added)
  exact hcolumn ▸ htaken item hitem hviable

end

variable [DecidableEq T] [DecidableEq N] {g : Grammar T N} {input : List T} {s : Stage T N}
  {done : List Item}

/-- What holds at every stage, when some items of the open column have been
    processed. -/
structure Invariant (g : Grammar T N) (input : List T) (done : List Item) (s : Stage T N) :
    Prop where
  sound : s.Sound g input
  ordered : s.Ordered g done
  worked : s.Worked g input done

/-- The rules of the start symbol have been offered at the start, and nothing
    else is there yet. -/
theorem invariant_start (g : Grammar T N) (input : List T) :
    (start g input.head?).Invariant g input [] := by
  rcases Front.offerAll_spec (g := g) ((g.rulesFor g.start).map (Item.fresh 0))
      (Front.blank input.head? #[] 0 : Front T N) with
    ⟨added, hoffer, hadded, hdistinct, htaken⟩
  have hstart : start g input.head? = ⟨(Front.blank input.head? #[] 0).taking g added, .empty⟩ := by
    rw [start, hoffer]
  have hhead : input.head? = input[0]? := List.head?_eq_getElem?
  have hblank : (⟨Front.blank input.head? #[] 0, .empty⟩ : Stage T N).Sound g input := by
    refine ⟨Nat.zero_le _, hhead, Forest.open_empty g input 0, ?_, ?_, ?_,
      fun _ => Column.distinct_empty⟩
    · intro n v hv
      cases hv
    · intro j item _ hitem
      exact absurd hitem List.not_mem_nil
    · intro j item _ hitem
      exact absurd hitem List.not_mem_nil
  rw [hstart]
  refine ⟨hblank.taking (fun item hitem => ⟨?_, (hadded item hitem).2⟩)
    (hdistinct Column.distinct_empty), Ordered.taking ⟨rfl, rfl⟩ added, ?_⟩
  · rcases List.mem_map.mp (hadded item hitem).1 with ⟨rule, hrule, rfl⟩
    exact found_fresh .start hrule _
  · -- No item has been processed, so no work is owed but the offers.
    have hnone : ∀ {j : Nat} {item : Item}, j ≤ 0 →
        ¬ (⟨(Front.blank input.head? #[] 0).taking g added, .empty⟩ : Stage T N).Handled [] j
          item := by
      intro j item hj hitem
      exact List.not_mem_nil (hitem.2 (Nat.le_zero.mp hj))
    refine ⟨fun {rule} hrule => ?_, fun hj hitem => absurd hitem (hnone hj),
      fun hj hitem => absurd hitem (hnone hj), fun hj => absurd hj (Nat.not_lt_zero _),
      fun hj => absurd hj (Nat.not_lt_zero _), fun hitem => absurd hitem List.not_mem_nil⟩
    exact takes_of_offered .empty rfl hhead htaken ⟨_, List.mem_map_of_mem hrule, rfl⟩

/-- What has been done when an item of the open column has been processed. -/
structure Processed (g : Grammar T N) (input : List T) (done : List Item) (item : Item)
    (s s' : Stage T N) : Prop where
  extension : s.Extends s'
  position : s'.front.position = s.front.position
  handled {j : Nat} {e : Item} : j ≤ s.front.position → s'.Handled (done ++ [item]) j e →
    s.Handled done j e ∨ j = s.front.position ∧ e = item
  column : item ∈ s.front.column.items
  predicted {n : N} : item.next? g = some (.nonterminal n) → ∀ rule ∈ g.rulesFor n,
    s'.Takes g input s.front.position rule 0 s.front.position
  stepped {n : N} {v : NodeId} : item.next? g = some (.nonterminal n) →
    s.front.nullable.lookup n = some v → s'.Advances g input s.front.position item v
  completed {r : Rule T N} : g.rules[item.rule]? = some r → r.body[item.dot]? = none →
    ∃ v, s'.forest.Has v (.nonterminal r.head) ⟨item.origin, s.front.position⟩ ∧
      (r.body = [] →
        s'.forest.Lists v (.nonterminal r.head) ⟨item.origin, s.front.position⟩ .epsilon) ∧
      (∀ e ∈ (s.front.columnAt item.origin).items, e.next? g = some (.nonterminal r.head) →
        s'.Advances g input s.front.position e v) ∧
      (item.origin = s.front.position → ∃ v, s'.front.nullable.lookup r.head = some v)
  kept {n : N} {v : NodeId} : s.front.nullable.lookup n = some v →
    ∃ v, s'.front.nullable.lookup n = some v

omit [DecidableEq T] [DecidableEq N] in
/-- When the first item of the agenda has been taken off and others have been
    taken in, what counts as handled did so before, or it is that item. -/
theorem Ordered.handled_of_taking {front : Front T N} {forest forest' : Forest T N} {item : Item}
    {rest added : List Item} {nullable : List (N × NodeId)}
    (hordered : (⟨front, forest⟩ : Stage T N).Ordered g done) {j : Nat} {e : Item}
    (hj : j ≤ front.position)
    (he : (⟨({ front with agenda := rest, nullable } : Front T N).taking g added, forest'⟩ :
      Stage T N).Handled (done ++ [item]) j e) :
    (⟨front, forest⟩ : Stage T N).Handled done j e ∨ j = front.position ∧ e = item := by
  rcases Nat.lt_or_eq_of_le hj with hlt | hlast
  · have hmem := he.1
    simp only [Front.columnAt_taking_of_lt g { front with agenda := rest, nullable } added hlt]
      at hmem
    exact Or.inl ⟨hmem, fun hlast => absurd hlast (Nat.ne_of_lt hlt)⟩
  · rcases List.mem_append.mp (he.2 hlast) with hdone | hitem
    · have hmem : e ∈ front.column.items := hordered.mem_column (List.mem_append_left _ hdone)
      refine Or.inl ⟨?_, fun _ => hdone⟩
      rwa [hlast, Front.columnAt_position]
    · exact Or.inr ⟨hlast, List.mem_singleton.mp hitem⟩

/-- The first item of the agenda processed: everything stays true and in
    order, and what the item gives rise to has been done. -/
theorem processed_step (hsound : s.Sound g input) (hordered : s.Ordered g done) {item : Item}
    {rest : List Item} (hagenda : s.front.agenda = item :: rest) :
    (s.step g).Sound g input ∧ (s.step g).Ordered g (done ++ [item]) ∧
      Processed g input done item s (s.step g) := by
  rcases s with ⟨front, forest⟩
  have hagenda' : front.agenda = item :: rest := hagenda
  have hcolumn : item ∈ front.column.items := by
    refine hordered.mem_column (List.mem_append_right _ ?_)
    rw [hagenda]
    exact List.mem_cons_self
  have hfound : item.Found g input forest front.position := by
    refine hsound.found (Nat.le_refl _) ?_
    rwa [Front.columnAt_position]
  rcases Front.process_spec hsound.forest hsound.nullable (fun j hj e he => hsound.found hj he)
    hfound with ⟨hy, hhandles⟩
  generalize hprocess : front.process g forest item = y at hy hhandles
  -- The open column as it is before the offers are taken in.
  let popped : Front T N := { front with agenda := rest, nullable := y.nullable }
  rcases Front.offerAll_spec (g := g) y.offers popped with
    ⟨added, hoffer, hadded, hdistinct, htaken⟩
  have hstep : Stage.step g ⟨front, forest⟩ = ⟨popped.taking g added, y.forest⟩ := by
    simp only [Stage.step, hagenda', hprocess]
    exact congrArg (Stage.mk · y.forest) hoffer
  have hsound' : (⟨popped, y.forest⟩ : Stage T N).Sound g input :=
    ⟨hsound.position_le, hsound.lookahead, hy.opened, hy.nullable,
      fun hj hitem => (hsound.found hj hitem).grows hy.grows, hsound.viable, hsound.distinct⟩
  have hordered' : (⟨popped, y.forest⟩ : Stage T N).Ordered g (done ++ [item]) := by
    refine ⟨?_, hordered.shifting⟩
    have hold := hordered.agenda
    simp only [hagenda'] at hold
    rw [List.append_assoc]
    exact hold
  -- What the item gives rise to is among the offers, and the column takes them
  -- in.
  have hmoves : ∀ {e : Item} {v : NodeId}, y.Moves g front.position e v →
      (⟨popped.taking g added, y.forest⟩ : Stage T N).Advances g input front.position e v :=
    fun hmove => ⟨takes_of_offered y.forest rfl hsound.lookahead htaken hmove.1, hmove.2⟩
  rw [hstep]
  refine ⟨hsound'.taking (fun e he => ⟨hy.offers (hadded e he).1, (hadded e he).2⟩)
      (hdistinct ?_), hordered'.taking added,
    ⟨⟨(extends_taking g popped added y.forest).columns, hy.grows⟩, rfl,
      hordered.handled_of_taking, hcolumn, ?_, ?_, ?_, hhandles.kept⟩⟩
  · have hlast := hsound.distinct (Nat.le_refl front.position)
    rwa [Front.columnAt_position] at hlast
  · intro n hnext rule hrule
    exact takes_of_offered y.forest rfl hsound.lookahead htaken
      ⟨_, hhandles.predicted hnext rule hrule, rfl⟩
  · exact fun hnext hv => hmoves (hhandles.stepped hnext hv)
  · intro r hr hend
    rcases hhandles.completed hr hend with ⟨v, hhas, hempty, hwaiting, hremember⟩
    exact ⟨v, hhas, hempty, fun e he hnext => hmoves (hwaiting e he hnext), hremember⟩

omit [DecidableEq T] in
/-- The items that wait for the head of a complete item have moved on over its
    node, whichever of the two was processed first. -/
theorem Processed.completed_of_handled {s' : Stage T N} {item : Item}
    (h : Processed g input done item s s') (hsound : s.Sound g input)
    (hworked : s.Worked g input done) {j : Nat} {e : Item} {r : Rule T N}
    (hj : j ≤ s.front.position) (he : s'.Handled (done ++ [item]) j e)
    (hr : g.rules[e.rule]? = some r) (hend : r.body[e.dot]? = none) :
    ∃ v, s'.forest.Has v (.nonterminal r.head) ⟨e.origin, j⟩ ∧
      (r.body = [] → s'.forest.Lists v (.nonterminal r.head) ⟨e.origin, j⟩ .epsilon) ∧
      ∀ w, s'.Handled (done ++ [item]) e.origin w → w.next? g = some (.nonterminal r.head) →
        s'.Advances g input j w v := by
  have hextends := h.extension
  rcases h.handled hj he with hold | ⟨rfl, rfl⟩
  · -- The complete item was processed before.
    rcases hworked.completed hj hold hr hend with ⟨v, hhas, hempty, hadvances⟩
    refine ⟨v, hhas.grows hextends.grows, fun hnil => (hempty hnil).grows hextends.grows,
      fun w hw hnext => ?_⟩
    have hle : e.origin ≤ j := (hsound.found hj hold.1).matched.le
    rcases h.handled (Nat.le_trans hle hj) hw with hwold | ⟨horigin, rfl⟩
    · exact (hadvances w hwold hnext).extends hextends hj
    · -- The waiting item comes after the complete one, whose node is
      -- remembered and is the only one of its kind.
      have hlast : j = s.front.position := Nat.le_antisymm hj (horigin ▸ hle)
      rcases hworked.remembered (hold.2 hlast) hr hend horigin with ⟨v', hv'⟩
      have hhas' := hsound.nullable r.head v' hv'
      rw [horigin, hlast] at hhas
      rw [hlast, hsound.forest.sound.unique hhas hhas']
      exact h.stepped hnext hv'
  · rcases h.completed hr hend with ⟨v, hhas, hempty, hwaiting, _⟩
    refine ⟨v, hhas, hempty, fun w hw hnext => hwaiting w ?_ hnext⟩
    have hcolumn := h.column
    rw [← Front.columnAt_position] at hcolumn
    have hle : e.origin ≤ s.front.position := (hsound.found (Nat.le_refl _) hcolumn).matched.le
    rcases h.handled hle hw with hwold | ⟨horigin, rfl⟩
    · exact hwold.1
    · rw [horigin, Front.columnAt_position]
      exact h.column

omit [DecidableEq T] in
/-- What an item gives rise to has been done, and what was done before stays. -/
theorem Processed.worked {s' : Stage T N} {item : Item} (h : Processed g input done item s s')
    (hsound : s.Sound g input) (hworked : s.Worked g input done) :
    s'.Worked g input (done ++ [item]) := by
  have hextends := h.extension
  refine ⟨fun hrule => (hworked.started hrule).extends hextends (Nat.zero_le _), ?_, ?_, ?_,
    fun hj ht => ?_, ?_⟩
  · intro j e n hj he hnext rule hrule
    rw [h.position] at hj
    rcases h.handled hj he with hold | ⟨rfl, rfl⟩
    · exact (hworked.predicted hj hold hnext rule hrule).extends hextends hj
    · exact h.predicted hnext rule hrule
  · intro j e r hj he hr hend
    rw [h.position] at hj
    exact h.completed_of_handled hsound hworked hj he hr hend
  · intro j e t hj he hnext
    rw [h.position] at hj
    have hhandled : s'.Handled (done ++ [item]) j e := by
      refine ⟨he, fun hlast => ?_⟩
      rw [h.position] at hlast
      exact absurd hlast (Nat.ne_of_lt hj)
    rcases h.handled (Nat.le_of_lt hj) hhandled with hold | ⟨hlast, _⟩
    · rcases hworked.shifted hj hold.1 hnext with ⟨v, hhas, hadvances⟩
      exact ⟨v, hhas.grows hextends.grows, hadvances.extends hextends hj⟩
    · exact absurd hlast (Nat.ne_of_lt hj)
  · rw [h.position] at hj
    rcases hworked.leaves hj ht with ⟨v, hv⟩
    exact ⟨v, hv.grows hextends.grows⟩
  · intro e r he hr hend horigin
    rw [h.position] at horigin
    rcases List.mem_append.mp he with hdone | hitem
    · rcases hworked.remembered hdone hr hend horigin with ⟨v, hv⟩
      exact h.kept hv
    · rw [List.mem_singleton.mp hitem] at hr hend horigin
      rcases h.completed hr hend with ⟨_, _, _, _, hremember⟩
      exact hremember horigin

/-- Processing the first item of the agenda keeps the invariant, and that item
    counts as processed. -/
theorem Invariant.step (h : s.Invariant g input done) {item : Item} {rest : List Item}
    (hagenda : s.front.agenda = item :: rest) :
    (s.step g).Invariant g input (done ++ [item]) ∧
      (s.step g).front.position = s.front.position := by
  rcases processed_step h.sound h.ordered hagenda with ⟨hsound, hordered, hprocessed⟩
  exact ⟨⟨hsound, hordered, hprocessed.worked h.sound h.worked⟩, hprocessed.position⟩

end Stage

end EarleyForest
