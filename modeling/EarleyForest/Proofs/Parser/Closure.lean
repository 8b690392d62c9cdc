import EarleyForest.Proofs.Parser.Columns
import EarleyForest.Proofs.Parser.Items

/-!
# Columns When They Are Left

A column is left when its agenda is empty. By then it is closed under what its
items give rise to. The rules of each nonterminal that an item expects are
there, and so is each item that has moved on over a nonterminal which was
completed in the column, wherever that nonterminal started.

The column in which it started may be the column itself. Then the waiting item
and the complete one are both in a column that has grown while they were
processed, and nothing says which of them came first. It makes no difference:
at the end both have been processed, and the invariant of the stages says of
any two such items that the one has moved on over the node of the other.

## Main definitions

* `Stage.closedAt`: The stage of a parse at which a column is left.
* `Stage.MovesOn`: An item has moved on over a node into the open column.

## Theorems

* `Invariant.fresh_mem_iff`: Which rules a column has for an item that expects
  a nonterminal.
* `Invariant.movesOn`: An item moves on over what has been completed.
* `closedAt_spec`, `decides_closedAt`: The stages at which columns are left,
  and what the parse keeps of them.
* `columns_closed`: Every column is closed when it is left.
-/

namespace EarleyForest

variable {T N : Type}

namespace Stage

/-- An item has moved on over the node `right` into the open column. What it
    matches then has one node, which lists the family of the step unless it is
    the node of the first symbol out of several. The column has the item moved
    on with this node and no other, unless the item would expect a terminal
    that does not come next. -/
def MovesOn (g : Grammar T N) (input : List T) (s : Stage T N) (item : Item)
    (right : NodeId) : Prop :=
  ∃ r label id, g.rules[item.rule]? = some r ∧
    g.labelAt? item.rule (item.dot + 1) = some label ∧
    s.forest.Only id label ⟨item.origin, s.front.position⟩ ∧
    (if item.dot = 0 ∧ 1 < r.body.length then id = right
      else s.forest.Lists id label ⟨item.origin, s.front.position⟩ (item.family right)) ∧
    ∀ other, item.moved other ∈ s.front.column.items ↔
      other = id ∧ g.Viable input[s.front.position]? item.rule (item.dot + 1)

variable [DecidableEq T] [DecidableEq N] {g : Grammar T N} {input : List T} {s : Stage T N}
  {done : List Item}

omit [DecidableEq T] in
/-- When an item expects a nonterminal, the rules of that nonterminal are there
    as soon as no item is left to process, unless they start with a terminal
    that does not come next. -/
theorem Invariant.fresh_mem_iff (h : s.Invariant g input done) (hagenda : s.front.agenda = [])
    {item : Item} {n : N} (hitem : item ∈ s.front.column.items)
    (hnext : item.next? g = some (.nonterminal n)) {rule : Nat} (hrule : rule ∈ g.rulesFor n) :
    Item.fresh s.front.position rule ∈ s.front.column.items ↔
      g.Viable input[s.front.position]? rule 0 := by
  rw [← Front.columnAt_position] at hitem ⊢
  constructor
  · intro hfresh
    exact h.sound.viable (Nat.le_refl _) hfresh
  · intro hviable
    have hhandled := handled_of_agenda_nil h.ordered hagenda hitem
      (Item.expectsTerminal_of_nonterminal hnext)
    have htakes := h.worked.predicted (Nat.le_refl _) hhandled hnext rule hrule
    rcases htakes.item hviable with ⟨other, hother, hrule', hdot, horigin⟩
    -- An item of which nothing has been matched has no node.
    have hnode := (h.sound.found (Nat.le_refl _) hother).node_eq_none_iff.mpr hdot
    have hfresh : other = Item.fresh s.front.position rule := by
      cases other
      simp only at hrule' hdot horigin hnode
      rw [hrule', hdot, horigin, hnode, Item.fresh]
    rwa [← hfresh]

omit [DecidableEq T] [DecidableEq N] in
/-- The node of what an item matches when it has moved on: that of the step, or
    that of the first symbol. -/
theorem Advances.exists_node {k : Nat} {item : Item} {n : N} {right : NodeId}
    (hadvances : s.Advances g input s.front.position item right)
    (horigin : item.dot = 0 → item.origin = k) {r : Rule T N} (hr : g.rules[item.rule]? = some r)
    (hsymbol : r.body[item.dot]? = some (.nonterminal n))
    (hright : s.forest.Has right (.nonterminal n) ⟨k, s.front.position⟩) :
    ∃ id label, g.labelAt? item.rule (item.dot + 1) = some label ∧
      s.forest.Has id label ⟨item.origin, s.front.position⟩ ∧
      (if item.dot = 0 ∧ 1 < r.body.length then id = right
        else s.forest.Lists id label ⟨item.origin, s.front.position⟩ (item.family right)) := by
  have hlabel := Grammar.labelAt?_succ hr hsymbol
  by_cases hfirst : item.dot = 0 ∧ 1 < r.body.length
  · rw [← horigin hfirst.1] at hright
    rw [if_pos hfirst] at hlabel
    exact ⟨right, _, hlabel, hright, by rw [if_pos hfirst]⟩
  · rcases hadvances.2 r hr hfirst with ⟨id, label, hlabel', hlists⟩
    exact ⟨id, label, hlabel', hlists.has, by rwa [if_neg hfirst]⟩

omit [DecidableEq T] in
/-- An item of the open column that has moved on has the one node of what it
    matches. -/
theorem Invariant.eq_moved (h : s.Invariant g input done) {item other : Item}
    {label : Label T N} {id : NodeId}
    (hlabel : g.labelAt? item.rule (item.dot + 1) = some label)
    (hhas : s.forest.Has id label ⟨item.origin, s.front.position⟩)
    (hother : other ∈ s.front.column.items) (hrule : other.rule = item.rule)
    (hdot : other.dot = item.dot + 1) (horigin : other.origin = item.origin) :
    other = item.moved id := by
  rw [← Front.columnAt_position] at hother
  have hfound := h.sound.found (Nat.le_refl _) hother
  rw [← hrule, ← hdot] at hlabel
  rcases hfound.only h.sound.forest.sound hlabel with ⟨id', hid', honly⟩
  rw [horigin] at honly
  have hid : id = id' := (honly id).mp hhas
  cases other
  simp only at hrule hdot horigin hid'
  rw [hrule, hdot, horigin, hid', ← hid, Item.moved]

omit [DecidableEq T] in
/-- An item that has been advanced over a node is in the open column with the
    one node of what it matches then, or it is not viable. -/
theorem Advances.movesOn (h : s.Invariant g input done) {k : Nat} (hk : k ≤ s.front.position)
    {item : Item} {n : N} (hitem : item ∈ (s.front.columnAt k).items)
    (hnext : item.next? g = some (.nonterminal n)) {right : NodeId}
    (hright : s.forest.Has right (.nonterminal n) ⟨k, s.front.position⟩)
    (hadvances : s.Advances g input s.front.position item right) :
    s.MovesOn g input item right := by
  rcases Grammar.symbolAt?_eq_some_iff.mp hnext with ⟨r, hr, hsymbol⟩
  rcases hadvances.exists_node (h.sound.found hk hitem).origin_eq hr hsymbol hright with
    ⟨id, label, hlabel, hhas, hstep⟩
  have honly : s.forest.Only id label ⟨item.origin, s.front.position⟩ := by
    intro other
    constructor
    · intro hother
      exact h.sound.forest.sound.unique hother hhas
    · rintro rfl
      exact hhas
  refine ⟨r, label, id, hr, hlabel, honly, hstep, fun other => ?_⟩
  constructor
  · intro hother
    refine ⟨?_, ?_⟩
    · have hsame := h.eq_moved hlabel hhas hother rfl rfl rfl
      rw [Item.moved, Item.moved, Item.mk.injEq, Option.some.injEq] at hsame
      exact hsame.2.2.2
    · rw [← Front.columnAt_position] at hother
      exact h.sound.viable (Nat.le_refl _) hother
  · rintro ⟨rfl, hviable⟩
    rcases hadvances.1.item hviable with ⟨there, hthere, hrule, hdot, horigin⟩
    rw [Front.columnAt_position] at hthere
    rwa [h.eq_moved hlabel hhas hthere hrule hdot horigin] at hthere

omit [DecidableEq T] in
/-- When no item is left to process, each item that expects a nonterminal has
    moved on over the node of that nonterminal if the open column has it
    complete from where the item stands. -/
theorem Invariant.movesOn (h : s.Invariant g input done) (hagenda : s.front.agenda = [])
    {item complete : Item} {r : Rule T N}
    (hitem : item ∈ (s.front.columnAt complete.origin).items)
    (hnext : item.next? g = some (.nonterminal r.head))
    (hcomplete : complete ∈ s.front.column.items) (hr : g.rules[complete.rule]? = some r)
    (hdot : complete.dot = r.body.length) :
    ∃ v, s.forest.Only v (.nonterminal r.head) ⟨complete.origin, s.front.position⟩ ∧
      s.MovesOn g input item v := by
  rw [← Front.columnAt_position] at hcomplete
  have hend : r.body[complete.dot]? = none := List.getElem?_eq_none (Nat.le_of_eq hdot.symm)
  have hnone : complete.next? g = none := (Grammar.symbolAt?_of_rule hr complete.dot).trans hend
  have horigin : complete.origin ≤ s.front.position :=
    (h.sound.found (Nat.le_refl _) hcomplete).matched.le
  -- Both have been processed, in whatever order.
  have hhandled := handled_of_agenda_nil h.ordered hagenda hcomplete
    (Item.expectsTerminal_of_complete hnone)
  have hwaiting := handled_of_agenda_nil h.ordered hagenda hitem
    (Item.expectsTerminal_of_nonterminal hnext)
  rcases h.worked.completed (Nat.le_refl _) hhandled hr hend with ⟨v, hhas, _, hadvances⟩
  refine ⟨v, fun other => ⟨fun hother => h.sound.forest.sound.unique hother hhas, ?_⟩,
    (hadvances item hwaiting hnext).movesOn h horigin hitem hnext hhas⟩
  rintro rfl
  exact hhas

/-- The stage of a parse at which the column at a position is left. -/
def closedAt (g : Grammar T N) (input : List T) (position : Nat) : Stage T N :=
  (opened g input position).close g

/-- When a column is left, everything holds that holds at every stage, and no
    item is left to process. -/
theorem closedAt_spec (g : Grammar T N) {input : List T} {position : Nat}
    (h : position ≤ input.length) : ∃ done, (closedAt g input position).Invariant g input done ∧
      (closedAt g input position).front.agenda = [] ∧
      (closedAt g input position).front.position = position := by
  rcases invariant_opened g h with ⟨hopened, hposition⟩
  rcases hopened.close with ⟨done, hclose, hagenda, hstays⟩
  exact ⟨done, hclose, hagenda, hstays.trans hposition⟩

/-- The columns and the nodes that are there when a column is left are there at
    the end of the parse. -/
theorem decides_closedAt (g : Grammar T N) (input : List T) (position : Nat) :
    (closedAt g input position).Decides (g.parse input) := by
  have hdecides := (decides_behind g (input.take position) (input.drop position)).1
  rwa [List.take_append_drop, List.head?_drop, behind_take] at hdecides

end Stage

namespace Parser

variable [DecidableEq T] [DecidableEq N]

/-- When the column at a position is left, no item of it is left to process,
    and it is as the parse has it in the end, as are the columns before it and
    the nodes made so far. It is closed then. For an item that expects a
    nonterminal it has the rules of that nonterminal; and each item of this or
    an earlier column that expects a nonterminal has moved on over it if the
    nonterminal is complete in this column from there on. Missing are only the
    items that would expect a terminal other than the next one. -/
theorem columns_closed (p : Parser T N) (input : List T) {i : Nat} (hi : i ≤ input.length) :
    ∃ s, s = Stage.closedAt p.grammar input i ∧
      p.parse input = (((Stage.opened p.grammar input i).run p.grammar
        (input.drop i)).close p.grammar).toParse p.grammar ∧
      s.front.position = i ∧ s.front.agenda = [] ∧
      (∀ k ≤ i, (p.parse input).columns[k]? = some (s.front.columnAt k)) ∧
      (∀ id node, s.forest.node? id = some node →
        (p.parse input).forest.node? id = some node) ∧
      (∀ item ∈ (s.front.columnAt i).items, ∀ n,
        item.next? p.grammar = some (.nonterminal n) → ∀ rule ∈ p.grammar.rulesFor n,
          (Item.fresh i rule ∈ (s.front.columnAt i).items ↔
            p.grammar.Viable input[i]? rule 0)) ∧
      ∀ k ≤ i, ∀ item ∈ (s.front.columnAt k).items, ∀ n,
        item.next? p.grammar = some (.nonterminal n) →
        ∀ complete ∈ (s.front.columnAt i).items, complete.origin = k →
          (∃ r, p.grammar.rules[complete.rule]? = some r ∧ r.head = n ∧
            complete.dot = r.body.length) →
          ∃ v, s.forest.Only v (.nonterminal n) ⟨k, i⟩ ∧ s.MovesOn p.grammar input item v := by
  rcases Stage.closedAt_spec p.grammar hi with ⟨done, hinvariant, hagenda, hposition⟩
  have hdecides := Stage.decides_closedAt p.grammar input i
  have hcolumn := Front.columnAt_position (Stage.closedAt p.grammar input i).front
  rw [hposition] at hcolumn
  refine ⟨_, rfl, (Stage.columns_opened p.grammar hi).1, hposition, hagenda, fun k hk => ?_,
    fun id node hnode => ?_, ?_, ?_⟩
  · exact hdecides.columns (by rwa [hposition])
  · rw [← hnode]
    exact hdecides.node? (Forest.has_of_node? hnode).lt_size
  · intro item hitem n hnext rule hrule
    rw [hcolumn] at hitem ⊢
    have hfresh := hinvariant.fresh_mem_iff hagenda hitem hnext hrule
    rwa [hposition] at hfresh
  · rintro k _ item hitem n hnext complete hcomplete rfl ⟨r, hr, rfl, hdot⟩
    rw [hcolumn] at hcomplete
    have hmoves := hinvariant.movesOn hagenda hitem hnext hcomplete hr hdot
    rwa [hposition] at hmoves

/-- Nothing, as two empty constituents. -/
def doublyEmpty : Parser Char Nat where
  grammar := ⟨0, [⟨0, [.nonterminal 1, .nonterminal 1]⟩, ⟨1, []⟩]⟩
  spelling := ⟨String.singleton, Nat.repr⟩
  valid := by decide

/-- The item behind the first empty constituent comes when that has been
    completed. It moves on over the same constituent, in the one column there
    is, and its node lists the step. -/
theorem doublyEmpty_columns_closed : 0 ≤ ([] : List Char).length ∧
    ∃ c id, (doublyEmpty.parse []).columns[0]? = some c ∧
      [⟨0, 0, 0, none⟩, ⟨1, 0, 0, none⟩, ⟨0, 1, 0, some 0⟩] <+: c.items ∧
      ⟨0, 2, 0, some id⟩ ∈ c.items ∧
      (doublyEmpty.parse []).forest.Lists id (.nonterminal 0) ⟨0, 0⟩ (.binary 0 0) := by
  rcases columns_closed doublyEmpty [] (Nat.le_refl 0) with
    ⟨s, _, _, hposition, _, hcolumns, hnodes, _, hmoves⟩
  have hitems : (doublyEmpty.parse []).columns[0]? = some ⟨[⟨0, 0, 0, none⟩, ⟨1, 0, 0, none⟩,
      ⟨0, 1, 0, some 0⟩, ⟨0, 2, 0, some 1⟩]⟩ := by decide
  have hcolumn := hcolumns 0 (Nat.le_refl 0)
  rw [hitems, Option.some.injEq] at hcolumn
  rcases hmoves 0 (Nat.le_refl 0) ⟨0, 1, 0, some 0⟩ (by rw [← hcolumn]; decide) 1 rfl
    ⟨1, 0, 0, none⟩ (by rw [← hcolumn]; decide) rfl ⟨_, rfl, rfl, rfl⟩ with
    ⟨v, hv, r, label, id, hr, hlabel, _, hstep, hthere⟩
  have hwhole : label = .nonterminal 0 := (Option.some.inj hlabel).symm
  -- The node of the empty constituent is the first one of the forest.
  have hfirst : v = 0 := by
    rcases (hv v).mpr rfl with ⟨families, hnode⟩
    have hhas : (doublyEmpty.parse []).forest.Has v (.nonterminal 1) ⟨0, 0⟩ :=
      ⟨families, hnodes v _ hnode⟩
    exact (doublyEmpty.grammar.parse_exact []).sound.unique hhas ⟨[.epsilon], by decide⟩
  rw [if_neg (fun h => absurd h.1 Nat.one_ne_zero), hwhole, hposition, hfirst] at hstep
  rcases hstep with ⟨families, hnode, hfamily⟩
  have hmoved : (⟨0, 2, 0, some id⟩ : Item) ∈ s.front.column.items :=
    (hthere id).mpr ⟨rfl, fun t ht => by cases ht⟩
  rw [← Front.columnAt_position, hposition, ← hcolumn] at hmoved
  exact ⟨Nat.le_refl 0, _, id, hitems, by decide, hmoved, families, hnodes id _ hnode, hfamily⟩

end Parser

end EarleyForest
