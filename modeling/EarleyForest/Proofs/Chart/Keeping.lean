import EarleyForest.Proofs.Chart.Closing

/-!
# What a Parse Leaves Alone

What a parse has done up to a position it never touches again. A closed column
stays as it is, and so do the nodes before the mark: packing looks for a node
behind the mark only, so it changes one of those or makes a new one.

The marks move up with the positions. When a column is opened, all nodes made
so far come before its mark, so from then on they have the families that they
will have in the end. Nodes are therefore numbered in the order in which their
spans end.

## Main definitions

* `Forest.Keeps`: The nodes before a number stay as they are.
* `Forest.Ascends`: Nodes are numbered in the order in which their spans end.
* `Stage.Keeps`: One stage comes after another and has left alone what the
  first one has closed.

## Theorems

* `keeps_step`, `keeps_close`, `keeps_shift`, `keeps_run`: What the moves of a
  parse leave alone.
* `forest_run`: What is kept along the way is there at the end.
* `parse_ascends`: The order of the nodes.
-/

namespace EarleyForest

variable {T N : Type}

namespace Forest

/-- The nodes numbered below `mark` are the same in both forests, and the
    second forest has no fewer nodes. -/
structure Keeps (mark : Nat) (f f' : Forest T N) : Prop where
  size_le : f.size ≤ f'.size
  node? {id : NodeId} : id < mark → f'.node? id = f.node? id

/-- Nodes are numbered in the order in which their spans end. -/
def Ascends (f : Forest T N) : Prop :=
  ∀ id id' node node', f.node? id = some node → f.node? id' = some node' → id ≤ id' →
    node.span.stop ≤ node'.span.stop

theorem Keeps.refl (mark : Nat) (f : Forest T N) : f.Keeps mark f := ⟨Nat.le_refl _, fun _ => rfl⟩

theorem Keeps.trans {mark mark' : Nat} {f f' f'' : Forest T N} (h : f.Keeps mark f')
    (h' : f'.Keeps mark' f'') (hmark : mark ≤ mark') : f.Keeps mark f'' where
  size_le := Nat.le_trans h.size_le h'.size_le
  node? hid := (h'.node? (Nat.lt_of_lt_of_le hid hmark)).trans (h.node? hid)

theorem Keeps.mono {mark mark' : Nat} {f f' : Forest T N} (h : f.Keeps mark' f')
    (hmark : mark ≤ mark') : f.Keeps mark f' := (Keeps.refl mark f).trans h hmark

/-- A new node comes behind all others. -/
theorem keeps_grow (f : Forest T N) (label : Label T N) (span : Span) :
    f.Keeps f.size (f.grow label span) where
  size_le := by
    rw [size_grow]
    exact Nat.le_succ _
  node? hid := by rw [node?_grow, if_neg (Nat.ne_of_lt hid)]

/-- Recording a family changes no node before its own. -/
theorem keeps_addFamily (f : Forest T N) {mark : Nat} {id : NodeId} (hid : mark ≤ id)
    (family : Family) : f.Keeps mark (f.addFamily id family) where
  size_le := Nat.le_of_eq (size_addFamily f id family).symm
  node? hother := by rw [node?_addFamily, if_neg (Nat.ne_of_gt (Nat.lt_of_lt_of_le hother hid))]

/-- If all nodes that are not kept end where the last ones do, the nodes stay
    in order. -/
theorem Ascends.keeps {mark position : Nat} {f f' : Forest T N} (h : f.Ascends)
    (hkeeps : f.Keeps mark f') (hmarked : f'.Marked mark position) : f'.Ascends := by
  intro id id' node node' hnode hnode' hle
  by_cases hmark : mark ≤ id'
  · -- The later node ends at the position, and none ends behind it.
    rw [(hmarked.behind (has_of_node? hnode')).mp hmark]
    exact hmarked.stop_le (has_of_node? hnode)
  · have hlt' : id' < mark := Nat.lt_of_not_le hmark
    rw [hkeeps.node? (Nat.lt_of_le_of_lt hle hlt')] at hnode
    rw [hkeeps.node? hlt'] at hnode'
    exact h id id' node node' hnode hnode' hle

variable [DecidableEq T] [DecidableEq N]

/-- Packing changes no node before the mark. -/
theorem keeps_pack (f : Forest T N) {mark : Nat} (hmark : mark ≤ f.size) (label : Label T N)
    (span : Span) (family : Family) : f.Keeps mark (f.pack mark label span family).2 := by
  unfold pack
  split
  · rename_i id hfind
    have hid := (List.mem_range'_1.mp (List.mem_of_find?_eq_some hfind)).1
    exact keeps_addFamily f hid family
  · have hgrow := (keeps_grow f label span).mono hmark
    exact hgrow.trans (keeps_addFamily _ hmark family) (Nat.le_refl _)

end Forest

namespace Front

variable [DecidableEq T] [DecidableEq N] (g : Grammar T N) (s : Front T N)

theorem keeps_join {f : Forest T N} (hmark : s.mark ≤ f.size) (item : Item) (right : NodeId) :
    f.Keeps s.mark (s.join g f item right).2 := by
  unfold join
  split
  · exact .refl _ f
  · split
    · exact .refl _ f
    · exact Forest.keeps_pack f hmark _ _ _

theorem keeps_moveAll {f : Forest T N} (hmark : s.mark ≤ f.size) (right : NodeId)
    (items : List Item) : f.Keeps s.mark (s.moveAll g right f items).2 := by
  induction items generalizing f with
  | nil => exact .refl _ f
  | cons item rest ih =>
      have hjoin := s.keeps_join g hmark item right
      exact hjoin.trans (ih (Nat.le_trans hmark hjoin.size_le)) (Nat.le_refl _)

theorem keeps_complete {f : Forest T N} (hmark : s.mark ≤ f.size)
    (head : N) (item : Item) : f.Keeps s.mark (s.complete f head item).2 := by
  unfold complete
  split
  · exact .refl _ f
  · exact Forest.keeps_pack f hmark _ _ _

/-- Processing an item changes no node before the mark. -/
theorem keeps_process {f : Forest T N} (hmark : s.mark ≤ f.size) (item : Item) :
    f.Keeps s.mark (s.process g f item).forest := by
  unfold process
  split
  · exact .refl _ f
  · rename_i rule _
    split
    · exact .refl _ f
    · split
      · exact .refl _ f
      · exact s.keeps_moveAll g hmark _ _
    · -- The head's node is there first, and then the waiting items move on.
      have hcomplete := s.keeps_complete hmark rule.head item
      have hmove := s.keeps_moveAll g (Nat.le_trans hmark hcomplete.size_le)
        (s.complete f rule.head item).1 ((s.columnAt item.origin).awaiting g rule.head)
      simp only
      split <;> exact hcomplete.trans hmove (Nat.le_refl _)

end Front

namespace Stage

variable [DecidableEq T] [DecidableEq N]

/-- The second stage comes after the first and has left alone what the first
    has closed: its closed columns and the nodes before its mark. -/
structure Keeps (s s' : Stage T N) : Prop where
  columns {j : Nat} {c : Column} : s.front.closed[j]? = some c → s'.front.closed[j]? = some c
  mark_le : s.front.mark ≤ s'.front.mark
  marked : s'.front.mark ≤ s'.forest.size
  forest : s.forest.Keeps s.front.mark s'.forest

omit [DecidableEq T] [DecidableEq N] in
theorem Keeps.refl {s : Stage T N} (hmark : s.front.mark ≤ s.forest.size) : s.Keeps s :=
  ⟨id, Nat.le_refl _, hmark, .refl _ _⟩

omit [DecidableEq T] [DecidableEq N] in
theorem Keeps.trans {s s' s'' : Stage T N} (h : s.Keeps s') (h' : s'.Keeps s'') : s.Keeps s'' where
  columns hj := h'.columns (h.columns hj)
  mark_le := Nat.le_trans h.mark_le h'.mark_le
  marked := h'.marked
  forest := h.forest.trans h'.forest h.mark_le

variable (g : Grammar T N) {s : Stage T N}

theorem keeps_step (hmark : s.front.mark ≤ s.forest.size) :
    s.Keeps (s.step g) ∧ (s.step g).front.closed = s.front.closed ∧
      (s.step g).front.mark = s.front.mark := by
  rcases s with ⟨front, forest⟩
  cases hagenda : front.agenda with
  | nil =>
      have hstay : step g ⟨front, forest⟩ = ⟨front, forest⟩ := by simp only [step, hagenda]
      rw [hstay]
      exact ⟨.refl hmark, rfl, rfl⟩
  | cons item rest =>
      have hprocess := front.keeps_process g hmark item
      simp only [step, hagenda]
      rcases Front.closed_offerAll g
          { front with agenda := rest, nullable := (front.process g forest item).nullable }
          (front.process g forest item).offers with ⟨hclosed, hmark'⟩
      refine ⟨⟨fun hj => ?_, Nat.le_of_eq hmark'.symm, ?_, hprocess⟩, hclosed, hmark'⟩
      · rw [hclosed]
        exact hj
      · rw [hmark']
        exact Nat.le_trans hmark hprocess.size_le

theorem keeps_stepFor (n : Nat) (hmark : s.front.mark ≤ s.forest.size) :
    s.Keeps (s.stepFor g n) ∧ (s.stepFor g n).front.closed = s.front.closed ∧
      (s.stepFor g n).front.mark = s.front.mark := by
  induction n generalizing s with
  | zero => exact ⟨.refl hmark, rfl, rfl⟩
  | succ n ih =>
      rw [stepFor]
      split
      · exact ⟨.refl hmark, rfl, rfl⟩
      · rcases keeps_step g hmark with ⟨hstep, hclosed, hmark'⟩
        rcases ih hstep.marked with ⟨hrest, hclosed', hmark''⟩
        exact ⟨hstep.trans hrest, hclosed'.trans hclosed, hmark''.trans hmark'⟩

/-- Closing a column changes nothing but the column and the nodes behind the
    mark. -/
theorem keeps_close (hmark : s.front.mark ≤ s.forest.size) :
    s.Keeps (s.close g) ∧ (s.close g).front.closed = s.front.closed ∧
      (s.close g).front.mark = s.front.mark := keeps_stepFor g _ hmark

/-- A shift closes the open column and marks all nodes that there are. -/
theorem keeps_shift (s : Stage T N) (terminal : T) (lookahead : Option T) :
    (s.shift g terminal lookahead).front.closed = s.front.closed.push s.front.column ∧
      (s.shift g terminal lookahead).front.mark = s.forest.size ∧
      s.forest.Keeps s.forest.size (s.shift g terminal lookahead).forest := by
  rcases s with ⟨front, forest⟩
  have hgrow := Forest.keeps_grow forest (.terminal terminal)
    ⟨front.position, (front.following lookahead forest.size).position⟩
  have hmove := Front.keeps_moveAll g (front.following lookahead forest.size) hgrow.size_le
    forest.size front.shifting
  rcases Front.closed_offerAll g (front.following lookahead forest.size)
      ((front.following lookahead forest.size).moveAll g forest.size
        (forest.grow (.terminal terminal)
          ⟨front.position, (front.following lookahead forest.size).position⟩)
        front.shifting).1 with ⟨hclosed, hmark⟩
  exact ⟨hclosed, hmark, hgrow.trans hmove (Nat.le_refl _)⟩

theorem keeps_of_shift (hmark : s.front.mark ≤ s.forest.size) (terminal : T)
    (lookahead : Option T) : s.Keeps (s.shift g terminal lookahead) := by
  rcases keeps_shift g s terminal lookahead with ⟨hclosed, hmark', hforest⟩
  refine ⟨fun {j c} hj => ?_, ?_, ?_, hforest.mono hmark⟩
  · have hlt := (Array.getElem?_eq_some_iff.mp hj).1
    rw [hclosed, Array.getElem?_push_lt hlt, ← Array.getElem?_eq_getElem hlt]
    exact hj
  · rw [hmark']
    exact hmark
  · rw [hmark']
    exact hforest.size_le

/-- Going through an input leaves alone what is closed. -/
theorem keeps_run (rest : List T) (hmark : s.front.mark ≤ s.forest.size) :
    s.Keeps ((s.run g rest).close g) := by
  induction rest generalizing s with
  | nil => exact (keeps_close g hmark).1
  | cons t rest ih =>
      have hclose := (keeps_close g hmark).1
      have hshift := keeps_of_shift g hclose.marked t rest.head?
      exact (hclose.trans hshift).trans (ih hshift.marked)

section

variable {g} {input : List T} {done : List Item}

/-- What a forest keeps when nodes are made or changed behind the mark, where
    spans end at the current position, it has at the end if it has it on the
    way. -/
theorem forest_run {P : Forest T N → Prop} {least : Nat}
    (hkeeps : ∀ {f f' : Forest T N} {mark position : Nat}, least ≤ position → P f →
      f.Keeps mark f' → f'.Marked mark position → P f') (rest : List T)
    (h : s.Invariant g input done) (hrest : input.drop s.front.position = rest)
    (hleast : least ≤ s.front.position) (hs : P s.forest) :
    P ((s.run g rest).close g).forest := by
  have hclose : ∀ {s : Stage T N} {done : List Item}, s.Invariant g input done →
      least ≤ s.front.position → P s.forest → P (s.close g).forest := by
    intro s done h hleast hs
    rcases h.close with ⟨_, hclosed, _, hposition⟩
    rcases keeps_close g h.sound.forest.marked.mark_le with ⟨hforest, _, hmark⟩
    have hmarked := hclosed.sound.forest.marked
    rw [hmark, hposition] at hmarked
    exact hkeeps hleast hs hforest.forest hmarked
  induction rest generalizing s done with
  | nil => exact hclose h hleast hs
  | cons t rest ih =>
      have hs' := hclose h hleast hs
      rcases h.read hrest with ⟨hshift, hnext, hrest'⟩
      -- The new column has a mark of its own, behind all nodes made so far.
      rcases keeps_shift g (s.close g) t rest.head? with ⟨_, hmark, hforest⟩
      have hmarked := hshift.sound.forest.marked
      rw [hmark] at hmarked
      have hleast' : least ≤ ((s.close g).shift g t rest.head?).front.position := by omega
      exact ih hshift (by rw [hnext, hrest']) hleast' (hkeeps hleast' hs' hforest hmarked)

end

end Stage

/-- The nodes of a parse are numbered in the order in which their spans end. -/
theorem Grammar.parse_ascends [DecidableEq T] [DecidableEq N] (g : Grammar T N) (input : List T) :
    (g.parse input).forest.Ascends := by
  refine Stage.forest_run (fun _ hf hkeeps hmarked => hf.keeps hkeeps hmarked) input
    (Stage.invariant_start g input) ?_ (Nat.zero_le _) fun id _ node _ hnode => ?_
  · rw [(Stage.position_start g input.head?).1, List.drop_zero]
  · exact absurd (Forest.has_of_node? hnode) (Forest.not_has_empty _ _ _)

end EarleyForest
