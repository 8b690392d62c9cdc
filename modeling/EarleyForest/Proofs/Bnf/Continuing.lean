import EarleyForest.Proofs.Bnf.Reading

/-!
# What Can Come Next

The reader is never behind. Whatever tokens it has gone through, they are the
beginning of some productions, because every place can be left by a few marks
that end the production at hand. And a token that leads nowhere from a place is
one with which no productions go on.

Where a token leads nowhere, its kind is not among those that can come there,
and these are all the kinds with which productions can go on.

## Main definitions

* `IsProductions`: Tokens are productions.
* `Viable`: Tokens are the beginning of productions.
* `Follows`: A kind of token with which productions go on.
* `Place.accepts`: The kinds of tokens that can come at a place.
* `Place.Reads`: From one place to another by tokens.

## Theorems

* `Reads.writes_iff`: Tokens write the same behind the place they lead to.
* `Reads.viable`, `Reads.not_viable`: What the reader has gone through, and
  where it stops.
* `after?_eq_none_iff`, `Reads.mem_accepts`: The kinds that can come at a
  place.
* `stop_of_rulesFrom`: Where the reader stops, and what it reports.
-/

namespace EarleyForest

namespace Bnf

/-- Tokens that a text can give and that write productions. -/
def IsProductions (tokens : List Token) : Prop :=
  (∀ token ∈ tokens, token.Proper) ∧ ∃ rules, WriteProductions tokens rules

/-- With some more tokens these are productions. -/
def Viable (tokens : List Token) : Prop := ∃ more, IsProductions (tokens ++ more)

/-- Some productions start with these tokens and go on with a token of a
    kind. -/
def Follows (tokens : List Token) (kind : Token.Kind) : Prop :=
  ∃ token more, token.kind = kind ∧ IsProductions (tokens ++ token :: more)

namespace Place

/-- The kinds of tokens that can come at a place. -/
def accepts : Place → List Token.Kind
  | outside => [.name]
  | named _ => [.defines]
  | within _ [] => [.semicolon, .bar, .epsilon, .quoted, .name]
  | within _ (_ :: _) => [.semicolon, .bar, .quoted, .name]
  | lone _ => [.semicolon, .bar]

/-- Tokens lead from one place to another. -/
inductive Reads : Place → List Token → Place → Prop where
  | nil (place : Place) : Reads place [] place
  | cons {place next last : Place} {token : Token} {tokens : List Token}
      {completed : Option (Rule String String)}
      (hafter : place.after? token = some (completed, next)) (later : Reads next tokens last) :
      Reads place (token :: tokens) last

/-- Productions may go on with a token that leads somewhere, and only then. -/
theorem exists_writes_iff {place : Place} {token : Token} {rest : List Token} :
    (∃ rules, WriteProductions (place.read ++ token :: rest) rules) ↔
      ∃ completed next, place.after? token = some (completed, next) ∧
        ∃ rules, WriteProductions (next.read ++ rest) rules := by
  simp only [writeProductions_after?, Continues]
  constructor
  · rintro ⟨rules, completed, next, later, hafter, _, hlater⟩
    exact ⟨completed, next, hafter, later, hlater⟩
  · rintro ⟨completed, next, hafter, later, hlater⟩
    exact ⟨_, completed, next, later, hafter, rfl, hlater⟩

/-- What tokens lead to writes productions with the tokens behind them, if all
    of them do. -/
theorem Reads.writes_iff {place last : Place} {tokens : List Token}
    (h : place.Reads tokens last) (more : List Token) :
    (∃ rules, WriteProductions (place.read ++ (tokens ++ more)) rules) ↔
      ∃ rules, WriteProductions (last.read ++ more) rules := by
  induction h with
  | nil place => rw [List.nil_append]
  | cons hafter later ih =>
      rw [List.cons_append, exists_writes_iff, hafter, ← ih]
      constructor
      · rintro ⟨completed, next, hsome, hwrites⟩
        cases hsome
        exact hwrites
      · exact fun hwrites => ⟨_, _, rfl, hwrites⟩

/-- Every place can be left by marks that end the production at hand. -/
theorem exists_reads_outside (place : Place) :
    ∃ marks, (∀ token ∈ marks, token.Proper) ∧ place.Reads marks outside := by
  have hsemicolon : ∀ token ∈ [Token.semicolon], token.Proper := by
    intro token htoken
    rw [List.mem_singleton.mp htoken]
    trivial
  cases place with
  | outside => exact ⟨[], fun token htoken => absurd htoken List.not_mem_nil, .nil outside⟩
  | within head symbols => exact ⟨[.semicolon], hsemicolon, .cons rfl (.nil outside)⟩
  | lone head => exact ⟨[.semicolon], hsemicolon, .cons rfl (.nil outside)⟩
  | named head =>
      refine ⟨[.defines, .semicolon], ?_, .cons rfl (.cons rfl (.nil outside))⟩
      exact List.forall_mem_cons.mpr ⟨trivial, hsemicolon⟩

section

variable {place : Place} {tokens : List Token}

/-- What the reader has gone through is the beginning of productions. -/
theorem Reads.viable (h : outside.Reads tokens place)
    (hproper : ∀ token ∈ tokens, token.Proper) : Viable tokens := by
  rcases place.exists_reads_outside with ⟨marks, hmarks, hreads⟩
  refine ⟨marks, fun token htoken => ?_, ?_⟩
  · rcases List.mem_append.mp htoken with htoken | htoken
    · exact hproper token htoken
    · exact hmarks token htoken
  · -- Behind the marks the reader is between two productions.
    have hmarks' := (hreads.writes_iff []).mpr ⟨[], .nil⟩
    rw [List.append_nil] at hmarks'
    exact (h.writes_iff marks).mpr hmarks'

/-- A token with which productions go on leads somewhere. -/
theorem Reads.after?_ne_none (h : outside.Reads tokens place) {token : Token} {more : List Token}
    (hmore : IsProductions (tokens ++ token :: more)) : place.after? token ≠ none := by
  have hwrites := (h.writes_iff (token :: more)).mp hmore.2
  rcases exists_writes_iff.mp hwrites with ⟨completed, next, hafter, _⟩
  rw [hafter]
  exact Option.some_ne_none _

/-- No productions go on with a token that leads nowhere. -/
theorem Reads.not_viable (h : outside.Reads tokens place) {token : Token}
    (hafter : place.after? token = none) (later : List Token) :
    ¬ Viable (tokens ++ token :: later) := by
  rintro ⟨more, hmore⟩
  rw [List.append_assoc, List.cons_append] at hmore
  exact h.after?_ne_none hmore hafter

end

/-- A token leads nowhere if and only if its kind cannot come. -/
theorem after?_eq_none_iff {place : Place} {token : Token} :
    place.after? token = none ↔ token.kind ∉ place.accepts := by
  cases place with
  | outside => cases token <;> simp [after?, accepts, Token.kind]
  | named head => cases token <;> simp [after?, accepts, Token.kind]
  | lone head => cases token <;> simp [after?, accepts, Token.kind]
  | within head symbols =>
      cases symbols with
      | nil => cases token <;> simp [after?, accepts, Token.kind]
      | cons s rest => cases token <;> simp [after?, accepts, Token.kind]

/-- Productions go on with a token only if its kind can come. -/
theorem Reads.mem_accepts {place : Place} {tokens : List Token} {kind : Token.Kind}
    (h : outside.Reads tokens place) (hfollows : Follows tokens kind) : kind ∈ place.accepts := by
  rcases hfollows with ⟨token, more, rfl, hmore⟩
  have hafter := h.after?_ne_none hmore
  rwa [ne_eq, after?_eq_none_iff, Decidable.not_not] at hafter

end Place

/-- Where the reader stops, and what it reports: a token that leads nowhere, or
    behind all tokens the byte where something else begins, or else the end of
    a text that has not come to the end of a production. -/
theorem stop_of_rulesFrom {place : Place} {offset : Nat} {invalid : Option Nat}
    {lexemes : List Lexeme} {error : SyntaxError}
    (h : rulesFrom place offset invalid lexemes = .error error) :
    ∃ front behind last, lexemes = front ++ behind ∧
      place.Reads (front.map Lexeme.token) last ∧
      ((∃ found later, behind = found :: later ∧ last.after? found.token = none ∧
          error = .unexpectedToken (front.map Lexeme.kind) found) ∨
        (∃ byte, behind = [] ∧ invalid = some byte ∧ error = .invalidToken byte) ∨
        behind = [] ∧ invalid = none ∧ last ≠ .outside ∧ error = .unexpectedEnd
          (front.map Lexeme.kind) ((front.getLast?.map Lexeme.stop).getD offset)) := by
  induction lexemes generalizing place offset error with
  | nil =>
      refine ⟨[], [], place, rfl, .nil place, Or.inr ?_⟩
      cases invalid with
      | some byte =>
          cases h
          exact Or.inl ⟨byte, rfl, rfl, rfl⟩
      | none =>
          cases place with
          | outside => cases h
          | named head => cases h; exact Or.inr ⟨rfl, rfl, Place.noConfusion, rfl⟩
          | within head symbols => cases h; exact Or.inr ⟨rfl, rfl, Place.noConfusion, rfl⟩
          | lone head => cases h; exact Or.inr ⟨rfl, rfl, Place.noConfusion, rfl⟩
  | cons found rest ih =>
      rw [rulesFrom] at h
      cases hafter : place.after? found.token with
      | none =>
          rw [hafter] at h
          cases h
          exact ⟨[], found :: rest, place, rfl, .nil place, Or.inl ⟨found, rest, rfl, hafter, rfl⟩⟩
      | some move =>
          rcases move with ⟨completed, next⟩
          simp only [hafter] at h
          cases hlater : rulesFrom next found.stop invalid rest with
          | ok rules =>
              rw [hlater] at h
              cases h
          | error error' =>
              rw [hlater] at h
              cases h
              rcases ih hlater with ⟨front, behind, last, rfl, hreads, hstop⟩
              refine ⟨found :: front, behind, last, rfl, .cons hafter hreads, ?_⟩
              rcases hstop with ⟨found', later, hbehind, hnone, rfl⟩ |
                ⟨byte, hbehind, hbyte, rfl⟩ | ⟨hbehind, hvalid, hplace, rfl⟩
              · exact Or.inl ⟨found', later, hbehind, hnone, rfl⟩
              · exact Or.inr (Or.inl ⟨byte, hbehind, hbyte, rfl⟩)
              · -- The last token before the end is the one found, if there is
                -- none behind it.
                have hend : (((found :: front).getLast?).map Lexeme.stop).getD offset =
                    ((front.getLast?).map Lexeme.stop).getD found.stop := by
                  rw [List.getLast?_cons]
                  cases front.getLast? with
                  | none => rfl
                  | some last => rfl
                rw [hend]
                exact Or.inr (Or.inr ⟨hbehind, hvalid, hplace, rfl⟩)

end Bnf

end EarleyForest
