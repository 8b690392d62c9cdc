import EarleyForest.Proofs.Bnf.Spots

/-!
# Reductions of a Generated Parser

The states on the stack of a parser stand for spots one by one. So the parser
reduces as the merged table does, but for names. Behind a name it is known that
the parser reduces before all that may come behind a name in this place. It may
reduce before more than that, if its table does not tell heads and atoms apart.

Below a production, a body and an atom only few stacks are possible. From each
of them the reductions at the end of that phrase are written out here, as runs
of the merged table.

## Main definitions

* `Stacks`: The states of a stack stand for spots.
* `Stacked`: The same, and how the state behind a name has been reached.
* `Step`: A reduction of the merged table that is not one of a name.
* `Base`, `Room`, `Slot`: What is on the stack below a production, a body and an
  atom.

## Theorems

* `reduces_of_steps`: A parser reduces as the merged table does.
* `Stacked.reduce?_name`, `Stacked.reduced?_name`: When a name is reduced, and
  where that leads.
* `steps_of_body`, `steps_of_production`, `steps_of_atom`: What is reduced at the
  end of a phrase.
-/

namespace EarleyForest

namespace Bnf

variable {t : Table Token.Kind Phrase} {ahead : Option Token.Kind}

/-- The states of a stack stand for spots, one by one. -/
def Stacks (t : Table Token.Kind Phrase) : List t.State → List Spot → Prop :=
  List.Forall₂ (Stands t)

section

variable {stack : List t.State} {s : Spot} {spots spots' : List Spot}

/-- A parser reduces as the merged table does, but behind a name. -/
theorem Stacks.reduced? (ht : t.IsLr grammar) (h : Stacks t stack (s :: spots)) (hs : s ≠ .name)
    (hspots : merged.reduced? grammar ahead (s :: spots : List Spot) = some spots') :
    ∃ stack', t.reduced? grammar ahead stack = some stack' ∧ Stacks t stack' spots' := by
  cases h with
  | cons hstands hbelow =>
      exact Table.reduced?_of_forall₂ (u := merged) (fun h hmove => h.exists_goto ht hmove)
        (.cons hstands hbelow) (hstands.reduce_eq ht hs ahead) hspots

/-- Nothing is reduced where the merged table calls for nothing. -/
theorem Stacks.reduced?_eq_none (ht : t.IsLr grammar) (h : Stacks t stack (s :: spots))
    (hs : s ≠ .name) (hnone : s.reduce? ahead = none) : t.reduced? grammar ahead stack = none := by
  cases h with
  | cons hstands hbelow =>
      have hreduce := (hstands.reduce_eq ht hs ahead).trans hnone
      simp only [Table.reduced?, hreduce, Option.bind_none]

/-- A reduction of the merged table that is not one of a name. -/
def Step (ahead : Option Token.Kind) (spots spots' : List Spot) : Prop :=
  spots.head? ≠ some .name ∧ merged.reduced? grammar ahead spots = some spots'

/-- Stacks are reduced as the merged table does step by step. -/
theorem reduces_of_steps (ht : t.IsLr grammar) (h : Stacks t stack spots)
    (hsteps : Relation.ReflTransGen (Step ahead) spots spots') :
    ∃ stack', t.Reduces grammar ahead stack stack' ∧ Stacks t stack' spots' := by
  induction hsteps with
  | refl => exact ⟨stack, .refl, h⟩
  | @tail spots₁ spots₂ _ hstep ih =>
      rcases ih with ⟨stack₁, hreduces, hstacks⟩
      rcases hstep with ⟨hname, hreduced⟩
      cases spots₁ with
      | nil => cases hreduced
      | cons s below =>
          have hs : s ≠ .name := fun heq => hname (congrArg some heq)
          rcases hstacks.reduced? ht hs hreduced with ⟨stack₂, hstep, hstacks'⟩
          exact ⟨stack₂, hreduces.tail hstep, hstacks'⟩

/-- The stack stays as it is where the merged table calls for nothing. -/
theorem Stacks.settles (ht : t.IsLr grammar) (h : Stacks t stack (s :: spots)) (hs : s ≠ .name)
    (hnone : s.reduce? ahead = none) : t.Settles grammar ahead stack stack :=
  .done (h.reduced?_eq_none ht hs hnone)

/-- A stack that stands for spots, where it is known how the state behind a
    name has been reached. -/
structure Stacked (t : Table Token.Kind Phrase) (stack : List t.State) (spots : List Spot) :
    Prop where
  stands : Stacks t stack spots
  named {state below : t.State} {rest : List t.State} : stack = state :: below :: rest →
    spots.head? = some .name → t.goto? below (.terminal .name) = some state

/-- A name is reduced before all that may come behind it in its place. -/
theorem Stacked.reduce?_name (ht : t.IsLr grammar) {state : t.State} {below : List t.State}
    (h : Stacked t (state :: below) (.name :: s :: spots)) (hahead : ahead ∈ s.aheads .name) :
    t.reduce? state ahead = some 15 := by
  cases h.stands with
  | cons hname hbelow =>
      cases hbelow with
      | cons hstands hrest => exact hstands.reduce_name ht (h.named rfl rfl) hahead

/-- Only a name is reduced behind a name. It leads where a name leads. -/
theorem Stacked.reduced?_name (ht : t.IsLr grammar) {state : t.State} {below : List t.State}
    {rule : Nat} {s' : Spot} (h : Stacked t (state :: below) (.name :: s :: spots))
    (hreduce : t.reduce? state ahead = some rule) (hmove : s.goto? (.nonterminal .name) = some s') :
    ∃ stack', t.reduced? grammar ahead (state :: below) = some stack' ∧
      Stacks t stack' (s' :: s :: spots) := by
  cases h.stands with
  | cons hname hbelow =>
      have hrule : ∀ rule, Spot.name.reduce? ahead = some rule → rule = 15 := by
        intro rule hrule
        rcases Option.map_eq_some_iff.mp hrule with ⟨item, hfind, rfl⟩
        have hitems : ∀ item ∈ Spot.name.items, item.rule = 15 := by decide
        exact hitems item (List.mem_of_find?_eq_some hfind)
      have hrule' := hrule rule (hname.ends ht hreduce)
      subst hrule'
      cases hbelow with
      | cons hstands hrest =>
          rcases hstands.exists_goto ht hmove with ⟨next, hgoto, hnext⟩
          refine ⟨_, ?_, .cons hnext (.cons hstands hrest)⟩
          simp only [Table.reduced?, hreduce, Option.bind_some]
          exact congrArg (Option.map _) hgoto

/-- What comes behind a name in its place makes the parser reduce it. -/
theorem Stacked.reduces_name (ht : t.IsLr grammar) {s' : Spot}
    (h : Stacked t stack (.name :: s :: spots)) (hahead : ahead ∈ s.aheads .name)
    (hmove : s.goto? (.nonterminal .name) = some s') :
    ∃ stack', t.Reduces grammar ahead stack stack' ∧ Stacks t stack' (s' :: s :: spots) := by
  cases stack with
  | nil => cases h.stands
  | cons state below =>
      rcases h.reduced?_name ht (h.reduce?_name ht hahead) hmove with ⟨stack', hstep, hstacks⟩
      exact ⟨stack', .single hstep, hstacks⟩

end

/-- What is on the stack below a production. -/
inductive Base : List Spot → Prop where
  | first : Base [.beginning]
  | later : Base [.someProductions, .beginning]

/-- What is on the stack below a body: the beginning of a production, with the
    alternatives before. -/
inductive Room (base : List Spot) : List Spot → Prop where
  | first : Room base (.defined :: .head :: base)
  | later : Room base (.barred :: .alternatives :: .defined :: .head :: base)

/-- What is on the stack below an atom: that body's room, or the atoms before. -/
inductive Slot (room : List Spot) : List Spot → Prop where
  | first : Slot room room
  | later : Slot room (.atoms :: room)

section

variable {base room slot : List Spot}

/-- Below a production, a name is a head. -/
theorem Base.exists_eq_cons (h : Base base) : ∃ s spots, base = s :: spots ∧
    s.aheads .name = [some .defines] ∧ s.goto? (.nonterminal .name) = some .head ∧
    s.goto? (.terminal .name) = some .name := by
  cases h <;> exact ⟨_, _, rfl, rfl, rfl, rfl⟩

/-- A body may be a lone `ε`. -/
theorem Room.exists_eq_cons (h : Room base room) : ∃ s spots, room = s :: spots ∧ s ≠ .name ∧
    s.goto? (.terminal .epsilon) = some .lone ∧ s.reduce? (some .epsilon) = none := by
  cases h <;> exact ⟨_, _, rfl, nofun, rfl, rfl⟩

/-- In a body, a name is an atom. -/
theorem Slot.exists_eq_cons (hroom : Room base room) (h : Slot room slot) :
    ∃ s spots, slot = s :: spots ∧ s ≠ .name ∧ s.aheads .name = Spot.follow .atom ∧
      s.goto? (.nonterminal .name) = some .nameAtom ∧ s.goto? (.terminal .name) = some .name ∧
      s.goto? (.terminal .quoted) = some .quoted ∧ s.reduce? (some .name) = none ∧
      s.reduce? (some .quoted) = none := by
  cases h with
  | first => cases hroom <;> exact ⟨_, _, rfl, nofun, rfl, rfl, rfl, rfl, rfl, rfl⟩
  | later => exact ⟨_, _, rfl, nofun, rfl, rfl, rfl, rfl, rfl, rfl⟩

/-- At the end of a body, which may be empty, the alternatives are complete. -/
theorem steps_of_body (hroom : Room base room)
    (hahead : ahead = some .semicolon ∨ ahead = some .bar) :
    ∀ body ∈ [room, .lone :: room, .atoms :: room], Relation.ReflTransGen (Step ahead) body
      (.alternatives :: .defined :: .head :: base) := by
  simp only [List.forall_mem_cons, List.not_mem_nil, false_implies, implies_true, and_true]
  rcases hahead with rfl | rfl
  · cases hroom <;> exact ⟨.head ⟨nofun, rfl⟩ (.single ⟨nofun, rfl⟩),
      .head ⟨nofun, rfl⟩ (.single ⟨nofun, rfl⟩), .head ⟨nofun, rfl⟩ (.single ⟨nofun, rfl⟩)⟩
  · cases hroom <;> exact ⟨.head ⟨nofun, rfl⟩ (.single ⟨nofun, rfl⟩),
      .head ⟨nofun, rfl⟩ (.single ⟨nofun, rfl⟩), .head ⟨nofun, rfl⟩ (.single ⟨nofun, rfl⟩)⟩

/-- A production that has ended is one more of those before. -/
theorem steps_of_production (hbase : Base base) (hahead : ahead = some .name ∨ ahead = none) :
    Relation.ReflTransGen (Step ahead) (.ended :: .alternatives :: .defined :: .head :: base)
      [.someProductions, .beginning] := by
  rcases hahead with rfl | rfl
  · cases hbase <;> exact .head ⟨nofun, rfl⟩ (.single ⟨nofun, rfl⟩)
  · cases hbase <;> exact .head ⟨nofun, rfl⟩ (.single ⟨nofun, rfl⟩)

/-- An atom that has ended is one more of those before. -/
theorem steps_of_atom (hroom : Room base room) (hslot : Slot room slot)
    (hahead : ahead ∈ Spot.follow .atom) :
    ∀ atom ∈ [Spot.nameAtom, .quotedAtom],
      Relation.ReflTransGen (Step ahead) (atom :: slot) (.atoms :: room) := by
  simp only [List.forall_mem_cons, List.not_mem_nil, false_implies, implies_true, and_true]
  simp only [Spot.follow, List.mem_cons, List.not_mem_nil, or_false] at hahead
  rcases hahead with rfl | rfl | rfl | rfl
  all_goals
    cases hslot with
    | first => cases hroom <;> exact ⟨.head ⟨nofun, rfl⟩ (.single ⟨nofun, rfl⟩),
        .head ⟨nofun, rfl⟩ (.single ⟨nofun, rfl⟩)⟩
    | later => cases hroom <;> exact ⟨.head ⟨nofun, rfl⟩ (.single ⟨nofun, rfl⟩),
        .head ⟨nofun, rfl⟩ (.single ⟨nofun, rfl⟩)⟩

/-- A quoted terminal is an atom. -/
theorem step_of_quoted (hroom : Room base room) (hslot : Slot room slot)
    (hahead : ahead ∈ Spot.follow .atom) :
    Step ahead (.quoted :: slot) (.quotedAtom :: slot) := by
  simp only [Spot.follow, List.mem_cons, List.not_mem_nil, or_false] at hahead
  rcases hahead with rfl | rfl | rfl | rfl
  all_goals
    cases hslot with
    | first => cases hroom <;> exact ⟨nofun, rfl⟩
    | later => exact ⟨nofun, rfl⟩

end

end Bnf

end EarleyForest
