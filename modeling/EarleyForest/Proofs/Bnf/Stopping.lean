import EarleyForest.Proofs.Bnf.Continuing
import EarleyForest.Proofs.Bnf.Stacks

/-!
# Where a Generated Parser Stops

A parser that is driven by a table for the grammar of the notation reads the
tokens that the reader goes through, and stops at the token that leads nowhere.
The table may be any. What it has entries for where it stops are all the kinds
that can come there, and not the kind of the token that was found.

The reader's place tells which states are on the stack. A token that can come
makes the parser reduce just as the merged table has it, until the stack is
ready for the token. A token that cannot come makes it reduce nothing, with one
exception. Behind a name the parser may not know whether that is a head or an
atom. Then it reduces the name before a token that can come behind the other
kind of name, and stops in the next state.

## Main definitions

* `Shape`: What is on the stack at a place of the reader.
* `Ready`: What is on the stack when a token can be read.
* `Readies`: A stack settles such that it is ready for a token.
* `Rejects`: A stack settles with no entry for what comes next.
* `Place.Refuses`: What comes next leads nowhere.
* `Spot.Answers`: A spot has entries for what can come at a place.

## Theorems

* `Shape.readies`: Before a token that can come the stack is made ready.
* `Shape.reads`: A parser goes through the tokens that the reader goes through.
* `Shape.rejects`: Where another token, or the end, is found the parser stops.
* `stops_of_reads`: A parser stops where the reader does.
-/

namespace EarleyForest

namespace Bnf

variable {t : Table Token.Kind Phrase} {ahead : Option Token.Kind}

/-- What is on the stack at a place of the reader. -/
inductive Shape : Place → List Spot → Prop where
  | beginning : Shape .outside [.beginning]
  | ended {base : List Spot} (hbase : Base base) :
      Shape .outside (.ended :: .alternatives :: .defined :: .head :: base)
  | named {head : List Char} {base : List Spot} (hbase : Base base) :
      Shape (.named head) (.name :: base)
  | room {head : List Char} {base room : List Spot} (hbase : Base base) (hroom : Room base room) :
      Shape (.within head []) room
  | name {head : List Char} {s : Symbol String String} {symbols : List (Symbol String String)}
      {base room slot : List Spot} (hbase : Base base) (hroom : Room base room)
      (hslot : Slot room slot) : Shape (.within head (s :: symbols)) (.name :: slot)
  | quoted {head : List Char} {s : Symbol String String} {symbols : List (Symbol String String)}
      {base room slot : List Spot} (hbase : Base base) (hroom : Room base room)
      (hslot : Slot room slot) : Shape (.within head (s :: symbols)) (.quoted :: slot)
  | lone {head : List Char} {base room : List Spot} (hbase : Base base) (hroom : Room base room) :
      Shape (.lone head) (.lone :: room)

/-- What is on the stack at a place of the reader when a token of a kind can be
    read. -/
inductive Ready : Place → Token.Kind → List Spot → Prop where
  | head {base : List Spot} (hbase : Base base) : Ready .outside .name base
  | defines {head : List Char} {base : List Spot} (hbase : Base base) :
      Ready (.named head) .defines (.head :: base)
  | epsilon {head : List Char} {base room : List Spot} (hbase : Base base)
      (hroom : Room base room) : Ready (.within head []) .epsilon room
  | atom {head : List Char} {symbols : List (Symbol String String)} {kind : Token.Kind}
      {base room slot : List Spot} (hbase : Base base) (hroom : Room base room)
      (hslot : Slot room slot) (hkind : kind = .name ∨ kind = .quoted) :
      Ready (.within head symbols) kind slot
  | finish {place : Place} {kind : Token.Kind} {base : List Spot} (hbase : Base base)
      (hkind : kind = .semicolon ∨ kind = .bar) :
      Ready place kind (.alternatives :: .defined :: .head :: base)

section

variable {place next : Place} {kind : Token.Kind} {stack : List t.State} {spots : List Spot}

/-- A token read on a stack that is ready for it leads to the next place. -/
theorem Ready.after {token : Token} {completed : Option (Rule String String)}
    (h : Ready place token.kind spots) (hafter : place.after? token = some (completed, next)) :
    ∃ s s' rest, spots = s :: rest ∧ s.goto? (.terminal token.kind) = some s' ∧
      Shape next (s' :: s :: rest) := by
  generalize hkind : token.kind = kind at h
  cases h with
  | head hbase =>
      rcases hbase.exists_eq_cons with ⟨s, rest, rfl, _, _, hmove⟩
      cases token <;> cases hkind
      cases hafter
      exact ⟨s, _, rest, rfl, hmove, .named hbase⟩
  | defines hbase =>
      cases token <;> cases hkind
      cases hafter
      exact ⟨_, _, _, rfl, rfl, .room hbase .first⟩
  | epsilon hbase hroom =>
      rcases hroom.exists_eq_cons with ⟨s, rest, rfl, _, hmove, _⟩
      cases token <;> cases hkind
      cases hafter
      exact ⟨s, _, rest, rfl, hmove, .lone hbase hroom⟩
  | @atom head symbols _ _ _ _ hbase hroom hslot hatom =>
      rcases hslot.exists_eq_cons hroom with ⟨s, rest, rfl, _, _, _, hname, hquoted, _⟩
      have hcons (x : Symbol String String) : ∃ first later, symbols ++ [x] = first :: later :=
        List.exists_cons_of_ne_nil (List.append_ne_nil_of_right_ne_nil _ (List.cons_ne_nil x []))
      rcases hatom with rfl | rfl
      · cases token <;> cases hkind
        cases hafter
        rcases hcons _ with ⟨first, later, hsymbols⟩
        rw [hsymbols]
        exact ⟨s, _, rest, rfl, hname, .name hbase hroom hslot⟩
      · cases token <;> cases hkind
        cases hafter
        rcases hcons _ with ⟨first, later, hsymbols⟩
        rw [hsymbols]
        exact ⟨s, _, rest, rfl, hquoted, .quoted hbase hroom hslot⟩
  | finish hbase hmark =>
      rcases hmark with rfl | rfl
      · cases token <;> cases hkind
        refine ⟨_, _, _, rfl, rfl, ?_⟩
        cases place <;> cases hafter <;> exact .ended hbase
      · cases token <;> cases hkind
        refine ⟨_, _, _, rfl, rfl, ?_⟩
        cases place <;> cases hafter <;> exact .room hbase .later

/-- A stack settles such that it is ready for a token of a kind. -/
def Readies (t : Table Token.Kind Phrase) (stack : List t.State) (place : Place)
    (kind : Token.Kind) : Prop :=
  ∃ stack' spots', t.Settles grammar (some kind) stack stack' ∧ Stacks t stack' spots' ∧
    Ready place kind spots'

/-- Reductions on the way make no difference. -/
theorem Readies.of_reduces {stack' : List t.State} (h : t.Reduces grammar (some kind) stack stack')
    (hready : Readies t stack' place kind) : Readies t stack place kind := by
  rcases hready with ⟨last, spots', hsettles, hstacks⟩
  exact ⟨last, spots', Table.settles_of_reduces h hsettles, hstacks⟩

/-- At the end of a body the stack is made ready for a mark. -/
theorem readies_of_body (ht : t.IsLr grammar) {base room : List Spot} (hbase : Base base)
    (hroom : Room base room) (hspots : spots ∈ [room, .lone :: room, .atoms :: room])
    (hs : Stacks t stack spots) (hkind : kind = .semicolon ∨ kind = .bar) :
    Readies t stack place kind := by
  have hsteps := steps_of_body hroom (hkind.imp (congrArg some) (congrArg some)) spots hspots
  have hnone : Spot.alternatives.reduce? (some kind) = none := by
    rcases hkind with rfl | rfl <;> rfl
  rcases reduces_of_steps ht hs hsteps with ⟨stack', hreduces, hstacks⟩
  refine .of_reduces hreduces ⟨stack', _, hstacks.settles ht (by decide) hnone, hstacks, ?_⟩
  exact .finish hbase hkind

/-- Behind an atom the stack is made ready for another one, or for a mark. -/
theorem readies_of_atom (ht : t.IsLr grammar) {base room slot : List Spot} (hbase : Base base)
    (hroom : Room base room) (hslot : Slot room slot) {atom : Spot}
    (hatom : atom ∈ [Spot.nameAtom, .quotedAtom]) (hs : Stacks t stack (atom :: slot))
    {head : List Char} {symbols : List (Symbol String String)}
    (hkind : kind ∈ [Token.Kind.semicolon, .bar, .quoted, .name]) :
    Readies t stack (.within head symbols) kind := by
  have hahead : some kind ∈ Spot.follow .atom := List.mem_map_of_mem hkind
  have hcases : (kind = .semicolon ∨ kind = .bar) ∨ kind = .name ∨ kind = .quoted := by
    revert hkind
    cases kind <;> decide
  rcases reduces_of_steps ht hs (steps_of_atom hroom hslot hahead atom hatom) with
    ⟨stack', hreduces, hstacks⟩
  refine .of_reduces hreduces ?_
  rcases hcases with hmark | hmore
  · exact readies_of_body ht hbase hroom (by simp) hstacks hmark
  · have hnone : Spot.atoms.reduce? (some kind) = none := by
      rcases hmore with rfl | rfl <;> rfl
    exact ⟨stack', _, hstacks.settles ht (by decide) hnone, hstacks, .atom hbase hroom .later hmore⟩

/-- Before a token that can come the stack is made ready. -/
theorem Shape.readies (ht : t.IsLr grammar) (h : Shape place spots) (hs : Stacked t stack spots)
    (hkind : kind ∈ place.accepts) : Readies t stack place kind := by
  cases h with
  | beginning =>
      rw [Place.accepts, List.mem_singleton] at hkind
      subst hkind
      have hnone : Spot.beginning.reduce? (some .name) = none := rfl
      exact ⟨stack, _, hs.stands.settles ht (by decide) hnone, hs.stands, .head .first⟩
  | ended hbase =>
      rw [Place.accepts, List.mem_singleton] at hkind
      subst hkind
      have hnone : Spot.someProductions.reduce? (some .name) = none := rfl
      rcases reduces_of_steps ht hs.stands (steps_of_production hbase (Or.inl rfl)) with
        ⟨stack', hreduces, hstacks⟩
      refine .of_reduces hreduces ?_
      exact ⟨stack', _, hstacks.settles ht (by decide) hnone, hstacks, .head .later⟩
  | named hbase =>
      rw [Place.accepts, List.mem_singleton] at hkind
      subst hkind
      rcases hbase.exists_eq_cons with ⟨s, rest, rfl, haheads, hmove, _⟩
      have hahead : some .defines ∈ s.aheads .name := by
        rw [haheads]
        exact List.mem_singleton_self _
      have hnone : Spot.head.reduce? (some .defines) = none := rfl
      rcases hs.reduces_name ht hahead hmove with ⟨stack', hreduces, hstacks⟩
      refine .of_reduces hreduces ?_
      exact ⟨stack', _, hstacks.settles ht (by decide) hnone, hstacks, .defines hbase⟩
  | room hbase hroom =>
      have hcases : (kind = .semicolon ∨ kind = .bar) ∨ kind = .epsilon ∨
          kind = .name ∨ kind = .quoted := by
        rw [Place.accepts] at hkind
        revert hkind
        cases kind <;> decide
      rcases hcases with hmark | rfl | hatom
      · exact readies_of_body ht hbase hroom List.mem_cons_self hs.stands hmark
      · rcases hroom.exists_eq_cons with ⟨s, rest, rfl, hname, _, hnone⟩
        exact ⟨stack, _, hs.stands.settles ht hname hnone, hs.stands, .epsilon hbase hroom⟩
      · rcases Slot.first.exists_eq_cons hroom with ⟨s, rest, rfl, hname, _, _, _, _, hnone, hnone'⟩
        have hnone : s.reduce? (some kind) = none := by
          rcases hatom with rfl | rfl
          · exact hnone
          · exact hnone'
        exact ⟨stack, _, hs.stands.settles ht hname hnone, hs.stands,
          .atom hbase hroom .first hatom⟩
  | name hbase hroom hslot =>
      rcases hslot.exists_eq_cons hroom with ⟨s, rest, rfl, _, haheads, hmove, _⟩
      have hahead : some kind ∈ s.aheads .name := by
        rw [haheads]
        exact List.mem_map_of_mem hkind
      rcases hs.reduces_name ht hahead hmove with ⟨stack', hreduces, hstacks⟩
      refine .of_reduces hreduces ?_
      exact readies_of_atom ht hbase hroom hslot List.mem_cons_self hstacks hkind
  | quoted hbase hroom hslot =>
      have hahead : some kind ∈ Spot.follow .atom := List.mem_map_of_mem hkind
      rcases reduces_of_steps ht hs.stands (.single (step_of_quoted hroom hslot hahead)) with
        ⟨stack', hreduces, hstacks⟩
      refine .of_reduces hreduces ?_
      exact readies_of_atom ht hbase hroom hslot (by simp) hstacks hkind
  | lone hbase hroom =>
      have hmark : kind = .semicolon ∨ kind = .bar := by
        simpa only [Place.accepts, List.mem_cons, List.not_mem_nil, or_false] using hkind
      exact readies_of_body ht hbase hroom (by simp) hs.stands hmark

/-- A token that can come is read, and the stack is as the next place has it. -/
theorem Shape.shifts (ht : t.IsLr grammar) (h : Shape place spots) (hs : Stacked t stack spots)
    {token : Token} {completed : Option (Rule String String)}
    (hafter : place.after? token = some (completed, next)) :
    ∃ stack' spots', t.Shifts grammar token.kind stack stack' ∧ Shape next spots' ∧
      Stacked t stack' spots' := by
  have hkind : token.kind ∈ place.accepts := by
    by_contra hnot
    rw [Place.after?_eq_none_iff.mpr hnot] at hafter
    cases hafter
  rcases h.readies ht hs hkind with ⟨settled, spots', hsettles, hstacks, hready⟩
  rcases hready.after hafter with ⟨s, s', rest, rfl, hmove, hshape⟩
  cases hstacks with
  | cons hstands hbelow =>
      rcases hstands.exists_goto ht hmove with ⟨state', hgoto, hstands'⟩
      refine ⟨_, _, .shift hsettles hgoto, hshape,
        .cons hstands' (.cons hstands hbelow), fun hstack hname => ?_⟩
      -- Only a name leads to the state behind a name.
      have hmoves : ∀ move ∈ s.moves, move.2 = .name → move.1 = .terminal .name := by
        cases s <;> decide
      have hterminal : Symbol.terminal token.kind = .terminal .name :=
        hmoves _ (goto?_eq_some_iff.mp hmove) (Option.some.inj hname)
      cases hstack
      rwa [hterminal] at hgoto

/-- A parser goes through the tokens that the reader goes through. -/
theorem Shape.reads (ht : t.IsLr grammar) (h : Shape place spots) (hs : Stacked t stack spots)
    {tokens : List Token} {last : Place} (hreads : place.Reads tokens last) :
    ∃ stack' spots', t.Reads grammar stack (tokens.map Token.kind) stack' ∧ Shape last spots' ∧
      Stacked t stack' spots' := by
  induction hreads generalizing stack spots with
  | nil place => exact ⟨stack, spots, .nil stack, h, hs⟩
  | cons hafter _ ih =>
      rcases h.shifts ht hs hafter with ⟨stack₁, spots₁, hshifts, hshape, hstacked⟩
      rcases ih hshape hstacked with ⟨stack', spots', hlater, hlast⟩
      exact ⟨stack', spots', .cons hshifts hlater, hlast⟩

end

/-- A parser stops on a stack in a state that has entries for these kinds, but
    none for what comes next. -/
def Rejects (t : Table Token.Kind Phrase) (stack : List t.State) (kinds : List Token.Kind)
    (ahead : Option Token.Kind) : Prop :=
  ∃ state below, t.Settles grammar ahead stack (state :: below) ∧
    (∀ kind ∈ kinds, t.acts state (some kind) = true) ∧ t.acts state ahead = false

/-- A place where what comes next leads nowhere. -/
def Place.Refuses (place : Place) : Option Token.Kind → Prop
  | some kind => kind ∉ place.accepts
  | none => place ≠ .outside

section

variable {place : Place} {stack : List t.State} {s : Spot} {spots : List Spot}

/-- A state has the entries of its spot. -/
theorem Stands.acts_eq (ht : t.IsLr grammar) {state : t.State} (h : Stands t state s)
    (hs : s ≠ .name) : t.acts state ahead = merged.acts s ahead := by
  have hgoto (kind : Token.Kind) :
      (t.goto? state (.terminal kind)).isSome = (s.goto? (.terminal kind)).isSome := by
    cases hmove : s.goto? (.terminal kind) with
    | none =>
        rw [h.goto_eq_none ht hmove]
        rfl
    | some s' =>
        rcases h.exists_goto ht hmove with ⟨state', hstate', _⟩
        rw [hstate']
        rfl
  have hany : (ahead.any fun kind => (t.goto? state (.terminal kind)).isSome) =
      ahead.any fun kind => (s.goto? (.terminal kind)).isSome := by
    simp only [hgoto]
  unfold Table.acts
  rw [h.reduce_eq ht hs, hany]

/-- A spot answers as a place does: there is an entry for each kind that can come,
    and for no other, and one for the end only between productions. -/
structure Spot.Answers (s : Spot) (place : Place) : Prop where
  ne_name : s ≠ .name
  acts_eq (kind : Token.Kind) : merged.acts s (some kind) = decide (kind ∈ place.accepts)
  acts_none : place ≠ .outside → merged.acts s none = false

/-- A parser stops where the spot on top answers as the place does. -/
theorem Stacks.rejects (ht : t.IsLr grammar) (h : Stacks t stack (s :: spots))
    (hs : s.Answers place) (hrefuses : place.Refuses ahead) :
    Rejects t stack place.accepts ahead := by
  have hnone : merged.acts s ahead = false := by
    cases ahead with
    | none => exact hs.acts_none hrefuses
    | some kind =>
        rw [hs.acts_eq, decide_eq_false_iff_not]
        exact hrefuses
  have hreduce : s.reduce? ahead = none := by
    rw [← Option.not_isSome_iff_eq_none, Bool.not_eq_true]
    exact (Bool.or_eq_false_iff.mp hnone).1
  cases h with
  | cons hstands hbelow =>
      have hsettles := Stacks.settles ht (.cons hstands hbelow) hs.ne_name hreduce
      refine ⟨_, _, hsettles, fun kind hkind => ?_, ?_⟩
      · rw [hstands.acts_eq ht hs.ne_name, hs.acts_eq, decide_eq_true_eq]
        exact hkind
      · rw [hstands.acts_eq ht hs.ne_name, hnone]

/-- Behind a name a parser stops, at once or when the name has been reduced. -/
theorem Stacked.rejects (ht : t.IsLr grammar) {s' : Spot}
    (h : Stacked t stack (.name :: s :: spots))
    (haccepts : ∀ kind ∈ place.accepts, some kind ∈ s.aheads .name)
    (hmove : s.goto? (.nonterminal .name) = some s')
    (hnext : ∀ stack', Stacks t stack' (s' :: s :: spots) → Rejects t stack' place.accepts ahead) :
    Rejects t stack place.accepts ahead := by
  cases stack with
  | nil => cases h.stands
  | cons state below =>
      cases hreduce : t.reduce? state ahead with
      | none =>
          refine ⟨state, below, ?_, fun kind hkind => ?_, ?_⟩
          · refine .done ?_
            simp only [Table.reduced?, hreduce, Option.bind_none]
          · rw [Table.acts, h.reduce?_name ht (haccepts kind hkind)]
            rfl
          · -- Nothing is read in the state behind a name.
            cases h.stands with
            | cons hname _ =>
                have hgoto (kind : Token.Kind) : t.goto? state (.terminal kind) = none :=
                  hname.goto_eq_none ht rfl
                simp only [Table.acts, hreduce, hgoto, Option.isSome_none, Option.any_false,
                  Bool.or_self]
      | some rule =>
          rcases h.reduced?_name ht hreduce hmove with ⟨stack', hstep, hstacks⟩
          rcases hnext stack' hstacks with ⟨last, rest, hsettles, hrejects⟩
          exact ⟨last, rest, .reduce hstep hsettles, hrejects⟩

/-- A parser stops where something else is found than what can come. It has an
    entry for all that can come. -/
theorem Shape.rejects (ht : t.IsLr grammar) (h : Shape place spots) (hs : Stacked t stack spots)
    (hrefuses : place.Refuses ahead) : Rejects t stack place.accepts ahead := by
  cases h with
  | beginning =>
      have hanswers : Spot.beginning.Answers .outside :=
        ⟨by decide, fun kind => by cases kind <;> rfl, fun hne => absurd rfl hne⟩
      exact hs.stands.rejects ht hanswers hrefuses
  | ended hbase =>
      have hanswers : Spot.ended.Answers .outside :=
        ⟨by decide, fun kind => by cases kind <;> rfl, fun hne => absurd rfl hne⟩
      exact hs.stands.rejects ht hanswers hrefuses
  | @named head base hbase =>
      have hanswers : Spot.head.Answers (.named head) :=
        ⟨by decide, fun kind => by cases kind <;> rfl, fun _ => rfl⟩
      rcases hbase.exists_eq_cons with ⟨s, rest, rfl, haheads, hmove, _⟩
      refine hs.rejects ht (fun kind hkind => ?_) hmove fun stack' hstacks =>
        hstacks.rejects ht hanswers hrefuses
      rw [haheads]
      exact List.mem_map_of_mem hkind
  | @room head base room hbase hroom =>
      cases hroom with
      | first =>
          have hanswers : Spot.defined.Answers (.within head []) :=
            ⟨by decide, fun kind => by cases kind <;> rfl, fun _ => rfl⟩
          exact hs.stands.rejects ht hanswers hrefuses
      | later =>
          have hanswers : Spot.barred.Answers (.within head []) :=
            ⟨by decide, fun kind => by cases kind <;> rfl, fun _ => rfl⟩
          exact hs.stands.rejects ht hanswers hrefuses
  | @name head first later base room slot hbase hroom hslot =>
      have hanswers : Spot.nameAtom.Answers (.within head (first :: later)) :=
        ⟨by decide, fun kind => by cases kind <;> rfl, fun _ => rfl⟩
      rcases hslot.exists_eq_cons hroom with ⟨s, rest, rfl, _, haheads, hmove, _⟩
      refine hs.rejects ht (fun kind hkind => ?_) hmove fun stack' hstacks =>
        hstacks.rejects ht hanswers hrefuses
      rw [haheads]
      exact List.mem_map_of_mem hkind
  | @quoted head first later base room slot hbase hroom hslot =>
      have hanswers : Spot.quoted.Answers (.within head (first :: later)) :=
        ⟨by decide, fun kind => by cases kind <;> rfl, fun _ => rfl⟩
      exact hs.stands.rejects ht hanswers hrefuses
  | @lone head base room hbase hroom =>
      have hanswers : Spot.lone.Answers (.lone head) :=
        ⟨by decide, fun kind => by cases kind <;> rfl, fun _ => rfl⟩
      exact hs.stands.rejects ht hanswers hrefuses

/-- A parser stops where the reader does. In its state it has an entry for every
    kind that can come at the reader's place, and none for what is there. -/
theorem stops_of_reads (ht : t.IsLr grammar) {tokens : List Token}
    (h : Place.outside.Reads tokens place) (hrefuses : place.Refuses ahead) :
    ∃ state below, t.Stops grammar (tokens.map Token.kind) ahead (state :: below) ∧
      (∀ kind ∈ place.accepts, t.acts state (some kind) = true) ∧ t.acts state ahead = false := by
  have hstart : Stacked t [t.start] [.beginning] :=
    ⟨.cons (stands_start ht) .nil, fun hstack => by cases hstack⟩
  rcases Shape.beginning.reads ht hstart h with ⟨stack, spots, hreads, hshape, hstacked⟩
  rcases hshape.rejects ht hstacked hrefuses with ⟨state, below, hsettles, hacts⟩
  exact ⟨state, below, ⟨stack, hreads, hsettles⟩, hacts⟩

end

end Bnf

end EarleyForest
