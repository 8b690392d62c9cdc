import EarleyForest.Bnf.Token

/-!
# The Longest Token

How a text is cut into tokens, said without a way to do it: blank characters
are left out, and wherever something else begins, the longest token that stands
there is taken off.

The tokens that a text can give are the proper ones. The first character of a
proper token settles its kind, and only a name can be cut off too early. So a
token is the longest one at its place if and only if it is proper and, being a
name, is not followed by a character that would go on with it.

## Main definitions

* `Token.Proper`: A text can give this token.
* `Token.Longest`: No proper token at the front of a text is longer.
* `Token.Ends`: A token does not go on into the text behind it.
* `Lexes`: A text is cut into these tokens.

## Theorems

* `front?_eq_some_iff`: The token at the front of a text.
* `longest_iff_ends`: What it takes to be the longest token.
* `lexes_front?_iff`: The first token of a text.
* `scanFrom_iff_lexes`: The tokens of a text.
-/

namespace EarleyForest

namespace Bnf

namespace Token

/-- A text can give this token: a name is spelled like one, and a quoted
    terminal holds no apostrophe. -/
def Proper : Token → Prop
  | name text => ∃ first rest, text = first :: rest ∧ isNameStart first = true ∧
    ∀ c ∈ rest, isNameRest c = true
  | quoted text => '\'' ∉ text
  | _ => True

/-- No proper token at the front of a text is longer. -/
def Longest (token : Token) (text : List Char) : Prop :=
  ∀ other : Token, other.Proper → other.chars <+: text →
    other.chars.length ≤ token.chars.length

/-- A token does not go on into the text behind it. -/
def Ends : Token → List Char → Prop
  | name _, behind => ∀ c, behind.head? = some c → isNameRest c = false
  | _, _ => True

end Token

/-- A text is cut into these tokens, at each place the longest one there is,
    with blank characters left out. -/
inductive Lexes : List Char → List Token → Prop where
  | nil : Lexes [] []
  | blank {c : Char} {rest : List Char} {tokens : List Token} (hblank : isBlank c = true)
      (later : Lexes rest tokens) : Lexes (c :: rest) tokens
  | token {token : Token} {behind : List Char} {tokens : List Token} (proper : token.Proper)
      (longest : token.Longest (token.chars ++ behind)) (later : Lexes behind tokens) :
      Lexes (token.chars ++ behind) (token :: tokens)

/-- The code point of a character that a name may start with. -/
theorem toNat_of_isNameStart {c : Char} (h : isNameStart c = true) :
    65 ≤ c.toNat ∧ c.toNat ≤ 90 ∨ 97 ≤ c.toNat ∧ c.toNat ≤ 122 ∨ c.toNat = 95 := by
  have hranges : (decide ('A'.val ≤ c.val ∧ c.val ≤ 'Z'.val) ||
      ('a'.val ≤ c.val && c.val ≤ 'z'.val) || c == '_') = true := h
  simp only [Bool.or_eq_true, Bool.and_eq_true, decide_eq_true_eq, beq_iff_eq,
    UInt32.le_iff_toNat_le] at hranges
  rcases hranges with (h | h) | rfl
  · exact Or.inl h
  · exact Or.inr (Or.inl h)
  · exact Or.inr (Or.inr rfl)

/-- A name does not start with a blank character. -/
theorem isBlank_of_isNameStart {c : Char} (h : isNameStart c = true) : isBlank c = false := by
  refine Bool.eq_false_iff.mpr fun hblank => ?_
  rcases CharTable.covers_eq_true_iff.mp hblank with ⟨range, hrange, hlow, hhigh⟩
  have hname := toNat_of_isNameStart h
  simp only [whiteSpace, List.mem_cons, List.not_mem_nil, or_false] at hrange
  rcases hrange with rfl | rfl | rfl | rfl | rfl | rfl | rfl | rfl | rfl | rfl <;>
    simp only at hlow hhigh <;> omega

/-- A name does not start with a character that another token starts with. -/
theorem ne_of_isNameStart {c : Char} (h : isNameStart c = true) :
    c ≠ '\'' ∧ c ≠ ':' ∧ c ≠ ';' ∧ c ≠ '|' ∧ c ≠ 'ε' := by
  refine ⟨?_, ?_, ?_, ?_, ?_⟩ <;>
  · rintro rfl
    revert h
    decide

/-- What some characters stop at is not among those before it. -/
theorem span_append {p : Char → Bool} {front behind : List Char} (hfront : ∀ c ∈ front, p c = true)
    (hbehind : ∀ c, behind.head? = some c → p c = false) :
    (front ++ behind).takeWhile p = front ∧ (front ++ behind).dropWhile p = behind := by
  rw [List.takeWhile_append_of_pos hfront, List.dropWhile_append_of_pos hfront]
  cases behind with
  | nil => exact ⟨List.append_nil front, rfl⟩
  | cons c rest =>
      have hstop : ¬ p c = true := Bool.eq_false_iff.mp (hbehind c rfl)
      rw [List.takeWhile_cons_of_neg hstop, List.dropWhile_cons_of_neg hstop, List.append_nil]
      exact ⟨rfl, rfl⟩

/-- What is left when characters have been dropped starts with another one. -/
theorem head?_dropWhile {p : Char → Bool} {text : List Char} {c : Char}
    (h : (text.dropWhile p).head? = some c) : p c = false := by
  have hnot := List.head?_dropWhile_not p text
  rwa [h] at hnot

namespace Token

/-- A proper token has a first character, and that is not blank. -/
theorem Proper.chars_eq_cons {token : Token} (h : token.Proper) :
    ∃ c rest, token.chars = c :: rest ∧ isBlank c = false := by
  cases token with
  | name text =>
      rcases h with ⟨first, rest, rfl, hfirst, _⟩
      exact ⟨first, rest, rfl, isBlank_of_isNameStart hfirst⟩
  | quoted text => exact ⟨_, _, rfl, by decide⟩
  | defines => exact ⟨_, _, rfl, by decide⟩
  | semicolon => exact ⟨_, _, rfl, by decide⟩
  | bar => exact ⟨_, _, rfl, by decide⟩
  | epsilon => exact ⟨_, _, rfl, by decide⟩

theorem quoted_append (text behind : List Char) :
    (quoted text).chars ++ behind = '\'' :: (text ++ '\'' :: behind) := by
  simp only [chars, List.cons_append, List.append_assoc, List.nil_append]

/-- A proper token that does not go on into the text behind it is taken off. -/
theorem front?_append {token : Token} {behind : List Char} (hproper : token.Proper)
    (hends : token.Ends behind) : front? (token.chars ++ behind) = some (token, behind) := by
  cases token with
  | name text =>
      rcases hproper with ⟨first, rest, rfl, hfirst, hrest⟩
      rcases ne_of_isNameStart hfirst with ⟨hquote, hcolon, hsemicolon, hbar, hepsilon⟩
      rcases span_append hrest hends with ⟨htake, hdrop⟩
      simp only [chars, List.cons_append, front?, if_neg hquote, if_neg hcolon, if_neg hsemicolon,
        if_neg hbar, if_neg hepsilon, if_pos hfirst, htake, hdrop]
  | quoted text =>
      have hinside : ∀ c ∈ text, decide (c ≠ '\'') = true := by
        intro c hc
        refine decide_eq_true fun hquote => hproper ?_
        rwa [← hquote]
      have hquote : ∀ c, ('\'' :: behind).head? = some c → decide (c ≠ '\'') = false := by
        rintro c hc
        cases hc
        rfl
      rcases span_append hinside hquote with ⟨htake, hdrop⟩
      simp only [quoted_append, front?, if_true, htake, hdrop]
  | defines => rfl
  | semicolon => rfl
  | bar => rfl
  | epsilon => rfl

/-- A text in which an apostrophe is found is split there. -/
theorem split_at_quote {text behind : List Char} {quote : Char}
    (h : text.dropWhile (· ≠ '\'') = quote :: behind) :
    '\'' ∉ text.takeWhile (· ≠ '\'') ∧
      text = text.takeWhile (· ≠ '\'') ++ '\'' :: behind := by
  have hsplit := List.takeWhile_append_dropWhile (p := (· ≠ '\'')) (l := text)
  have hquote := head?_dropWhile (congrArg List.head? h)
  simp only [ne_eq, decide_not, Bool.not_eq_false', decide_eq_true_eq] at hquote
  refine ⟨fun hmem => ?_, ?_⟩
  · have hinside := List.all_eq_true.mp List.all_takeWhile _ hmem
    exact of_decide_eq_true hinside rfl
  · rw [h, hquote] at hsplit
    exact hsplit.symm

/-- A token taken off a text is proper, and does not go on into what is left. -/
theorem eq_append_of_front? {text behind : List Char} {token : Token}
    (h : front? text = some (token, behind)) :
    token.Proper ∧ text = token.chars ++ behind ∧ token.Ends behind := by
  cases text with
  | nil => simp only [front?, reduceCtorEq] at h
  | cons c rest =>
      simp only [front?] at h
      split at h
      · rename_i hc
        subst hc
        split at h
        · cases h
        · rename_i quote after hdrop
          cases h
          rcases split_at_quote hdrop with ⟨hinside, hsplit⟩
          refine ⟨hinside, ?_, trivial⟩
          rw [quoted_append, ← hsplit]
      · split at h
        · rename_i hc
          subst hc
          split at h
          · cases h
            exact ⟨trivial, rfl, trivial⟩
          · cases h
        · repeat' split at h
          · rename_i hc
            cases h
            exact ⟨trivial, congrArg (· :: behind) hc, trivial⟩
          · rename_i hc
            cases h
            exact ⟨trivial, congrArg (· :: behind) hc, trivial⟩
          · rename_i hc
            cases h
            exact ⟨trivial, congrArg (· :: behind) hc, trivial⟩
          · rename_i hfirst
            cases h
            refine ⟨⟨c, _, rfl, hfirst, List.all_eq_true.mp List.all_takeWhile⟩, ?_,
              fun d hd => head?_dropWhile hd⟩
            rw [chars, List.cons_append, List.takeWhile_append_dropWhile]
          · cases h

/-- The token at the front of a text is the proper one that the text starts
    with and that does not go on into what is left. -/
theorem front?_eq_some_iff {text behind : List Char} {token : Token} :
    front? text = some (token, behind) ↔
      token.Proper ∧ text = token.chars ++ behind ∧ token.Ends behind := by
  refine ⟨eq_append_of_front?, ?_⟩
  rintro ⟨hproper, rfl, hends⟩
  exact front?_append hproper hends

/-- A proper token at the front of a text is a part of one that does not go on
    into what is left. -/
theorem Proper.exists_ends {token : Token} (hproper : token.Proper) (behind : List Char) :
    ∃ (token' : Token) (behind' : List Char), token'.Proper ∧ token'.Ends behind' ∧
      token.chars ++ behind = token'.chars ++ behind' ∧
      token.chars.length ≤ token'.chars.length := by
  cases token with
  | name text =>
      rcases hproper with ⟨first, rest, rfl, hfirst, hrest⟩
      refine ⟨name (first :: rest ++ behind.takeWhile isNameRest), behind.dropWhile isNameRest,
        ⟨first, rest ++ behind.takeWhile isNameRest, rfl, hfirst, fun c hc => ?_⟩, ?_, ?_, ?_⟩
      · rcases List.mem_append.mp hc with hc | hc
        · exact hrest c hc
        · exact List.all_eq_true.mp List.all_takeWhile c hc
      · exact fun c hc => head?_dropWhile hc
      · rw [chars, chars, List.append_assoc, List.takeWhile_append_dropWhile]
      · rw [chars, chars, List.length_append]
        exact Nat.le_add_right _ _
  | quoted text => exact ⟨quoted text, behind, hproper, trivial, rfl, Nat.le_refl _⟩
  | defines => exact ⟨defines, behind, trivial, trivial, rfl, Nat.le_refl _⟩
  | semicolon => exact ⟨semicolon, behind, trivial, trivial, rfl, Nat.le_refl _⟩
  | bar => exact ⟨bar, behind, trivial, trivial, rfl, Nat.le_refl _⟩
  | epsilon => exact ⟨epsilon, behind, trivial, trivial, rfl, Nat.le_refl _⟩

/-- A proper token is the longest one at the front of a text if it does not go
    on into what is behind it. -/
theorem longest_iff_ends {token : Token} {behind : List Char} (hproper : token.Proper) :
    token.Longest (token.chars ++ behind) ↔ token.Ends behind := by
  constructor
  · intro hlongest
    cases token with
    | name text =>
        -- With one character more it would be a longer name.
        intro c hc
        refine Bool.eq_false_iff.mpr fun hrest => ?_
        rcases List.head?_eq_some_iff.mp hc with ⟨rest, rfl⟩
        rcases hproper with ⟨first, text, rfl, hfirst, htext⟩
        have hlonger : (name (first :: text ++ [c])).Proper := by
          refine ⟨first, text ++ [c], rfl, hfirst, fun d hd => ?_⟩
          rcases List.mem_append.mp hd with hd | hd
          · exact htext d hd
          · rwa [List.mem_singleton.mp hd]
        have hle := hlongest _ hlonger ⟨rest, by simp only [chars, List.append_assoc,
          List.singleton_append]⟩
        simp only [chars, List.length_append, List.length_singleton] at hle
        omega
    | quoted text => trivial
    | defines => trivial
    | semicolon => trivial
    | bar => trivial
    | epsilon => trivial
  · -- Any token at the front is a part of the one that is taken off there.
    rintro hends other hother ⟨behind', htext⟩
    rcases hother.exists_ends behind' with ⟨token', behind'', hproper', hends', heq, hle⟩
    have hfront := front?_append hproper hends
    rw [← htext, heq, front?_append hproper' hends', Option.some.injEq, Prod.mk.injEq] at hfront
    rwa [hfront.1] at hle

end Token

/-- The tokens of a text are proper. -/
theorem Lexes.proper {text : List Char} {tokens : List Token} (h : Lexes text tokens) :
    ∀ token ∈ tokens, token.Proper := by
  induction h with
  | nil => exact fun _ hmem => absurd hmem List.not_mem_nil
  | blank hblank later ih => exact ih
  | token proper longest later ih => exact List.forall_mem_cons.mpr ⟨proper, ih⟩

theorem lexes_nil_iff {tokens : List Token} : Lexes [] tokens ↔ tokens = [] := by
  constructor
  · intro h
    generalize htext : ([] : List Char) = text at h
    cases h with
    | nil => rfl
    | blank => cases htext
    | token proper =>
        rcases proper.chars_eq_cons with ⟨c, rest, hchars, _⟩
        rw [hchars] at htext
        cases htext
  · rintro rfl
    exact .nil

/-- A blank character does not count. -/
theorem lexes_blank_iff {c : Char} {rest : List Char} {tokens : List Token}
    (hblank : isBlank c = true) : Lexes (c :: rest) tokens ↔ Lexes rest tokens := by
  refine ⟨fun h => ?_, .blank hblank⟩
  generalize htext : c :: rest = text at h
  cases h with
  | nil => cases htext
  | blank _ later =>
      cases htext
      exact later
  | token proper =>
      rcases proper.chars_eq_cons with ⟨d, rest', hchars, hd⟩
      rw [hchars] at htext
      cases htext
      rw [hd] at hblank
      cases hblank

/-- Where something begins that is not blank, the token taken off is the first
    one of the text. -/
theorem lexes_front?_iff {c : Char} {rest : List Char} {tokens : List Token}
    (hblank : isBlank c = false) : Lexes (c :: rest) tokens ↔
      ∃ token behind later, Token.front? (c :: rest) = some (token, behind) ∧
        tokens = token :: later ∧ Lexes behind later := by
  constructor
  · intro h
    generalize htext : c :: rest = text at h
    cases h with
    | nil => cases htext
    | blank hblank' =>
        cases htext
        rw [hblank] at hblank'
        cases hblank'
    | token proper longest later =>
        exact ⟨_, _, _, Token.front?_append proper ((Token.longest_iff_ends proper).mp longest),
          rfl, later⟩
  · rintro ⟨token, behind, later, hfront, rfl, hlater⟩
    rcases Token.front?_eq_some_iff.mp hfront with ⟨hproper, htext, hends⟩
    rw [htext]
    exact .token hproper ((Token.longest_iff_ends hproper).mpr hends) hlater

/-- A text is cut into tokens as far as the longest one is taken off at each
    place. -/
theorem scanFrom_iff_lexes (offset : Nat) (text : List Char) (tokens : List Token) :
    (scanFrom offset text).invalid = none ∧
        (scanFrom offset text).lexemes.map Lexeme.token = tokens ↔ Lexes text tokens := by
  fun_induction scanFrom offset text generalizing tokens with
  | case1 offset =>
      rw [lexes_nil_iff]
      exact ⟨fun h => h.2.symm, fun h => ⟨rfl, h.symm⟩⟩
  | case2 offset c rest hblank ih => rw [ih, lexes_blank_iff hblank]
  | case3 offset c rest hblank hfront =>
      rw [lexes_front?_iff (Bool.eq_false_iff.mpr hblank)]
      constructor
      · rintro ⟨hinvalid, _⟩
        cases hinvalid
      · rintro ⟨token, behind, later, hsome, _⟩
        rw [hfront] at hsome
        cases hsome
  | case4 offset c rest hblank token behind hfront stop later ih =>
      rw [lexes_front?_iff (Bool.eq_false_iff.mpr hblank)]
      constructor
      · rintro ⟨hinvalid, rfl⟩
        exact ⟨token, behind, _, hfront, rfl, (ih _).mp ⟨hinvalid, rfl⟩⟩
      · rintro ⟨token', behind', later', hsome, rfl, hlexes⟩
        rw [hfront, Option.some.injEq, Prod.mk.injEq] at hsome
        rcases hsome with ⟨rfl, rfl⟩
        rcases (ih later').mpr hlexes with ⟨hinvalid, htokens⟩
        exact ⟨hinvalid, congrArg (token :: ·) htokens⟩

end Bnf

end EarleyForest
