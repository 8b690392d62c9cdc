import EarleyForest.Proofs.Bnf.Lexing

/-!
# Cutting off the Front of a Text

A text that cannot be cut into tokens as a whole may still start with some
tokens. How far they go is counted in bytes, and behind any number of them the
text goes on at the byte where the last one ends, or behind the blank
characters there.

However many tokens are cut off, a scan of the whole text gives these first and
then goes on with a scan of what is left. So the tokens cut off are determined
by their number, and what a scan finds behind them stands at the front of what
is left.

## Main definitions

* `Cuts`: The front of a text is cut into lexemes.
* `Boundary`: A byte at which a character begins, or the text ends.

## Theorems

* `scanFrom_blank`, `scanFrom_front?`: The steps of a scan.
* `scanFrom_spec`: What a scan starts with where nothing is blank.
* `Cuts.scanFrom_eq`: A scan gives the lexemes cut off, and then goes on.
* `exists_cuts`: The first lexemes of a scan can be cut off.
* `Cuts.boundary`, `Cuts.boundary_of_mem`: Where lexemes start and end.
* `Boundary.isValid`: Boundaries in terms of the encoded text.
-/

namespace EarleyForest

namespace Bnf

/-- The front of a text, whose first byte has number `offset`, is cut into
    lexemes. The text goes on at byte `stop` with something not blank, or it
    ends there. -/
inductive Cuts : Nat → List Char → List Lexeme → Nat → List Char → Prop where
  | here {offset : Nat} {rest : List Char}
      (hrest : ∀ c, rest.head? = some c → isBlank c = false) : Cuts offset rest [] offset rest
  | blank {offset stop : Nat} {c : Char} {text rest : List Char} {lexemes : List Lexeme}
      (hblank : isBlank c = true) (later : Cuts (offset + c.utf8Size) text lexemes stop rest) :
      Cuts offset (c :: text) lexemes stop rest
  | token {offset stop : Nat} {token : Token} {behind rest : List Char} {lexemes : List Lexeme}
      (proper : token.Proper) (longest : token.Longest (token.chars ++ behind))
      (later : Cuts (offset + byteLength token.chars) behind lexemes stop rest) :
      Cuts offset (token.chars ++ behind)
        (⟨token, offset, offset + byteLength token.chars⟩ :: lexemes) stop rest

theorem byteLength_append (first second : List Char) :
    byteLength (first ++ second) = byteLength first + byteLength second := by
  induction first with
  | nil => exact (Nat.zero_add _).symm
  | cons c rest ih =>
      have hcons : ∀ text, byteLength (c :: text) = c.utf8Size + byteLength text := fun _ => rfl
      rw [List.cons_append, hcons, hcons, ih, Nat.add_assoc]

/-- A byte number at which a character of a text begins, or the text ends, if
    its first byte has number `offset`. -/
def Boundary (offset : Nat) (text : List Char) (byte : Nat) : Prop :=
  ∃ front behind, text = front ++ behind ∧ byte = offset + byteLength front

theorem Boundary.first (offset : Nat) (text : List Char) : Boundary offset text offset :=
  ⟨[], text, rfl, rfl⟩

theorem Boundary.append {offset byte : Nat} {text : List Char} (before : List Char)
    (h : Boundary (offset + byteLength before) text byte) :
    Boundary offset (before ++ text) byte := by
  rcases h with ⟨front, behind, rfl, hbyte⟩
  refine ⟨before ++ front, behind, (List.append_assoc _ _ _).symm, ?_⟩
  rw [hbyte, byteLength_append, Nat.add_assoc]

/-- A blank character does not count in a scan. -/
theorem scanFrom_blank {c : Char} (hblank : isBlank c = true) (offset : Nat) (rest : List Char) :
    scanFrom offset (c :: rest) = scanFrom (offset + c.utf8Size) rest := by
  rw [scanFrom, if_pos hblank]

/-- A scan takes off the token at the front of the text. -/
theorem scanFrom_front? {c : Char} {rest behind : List Char} {token : Token}
    (hblank : isBlank c = false) (hfront : Token.front? (c :: rest) = some (token, behind))
    (offset : Nat) : scanFrom offset (c :: rest) =
      ⟨⟨token, offset, offset + byteLength token.chars⟩ ::
          (scanFrom (offset + byteLength token.chars) behind).lexemes,
        (scanFrom (offset + byteLength token.chars) behind).invalid⟩ := by
  rw [scanFrom, if_neg (Bool.eq_false_iff.mp hblank)]
  split
  · rename_i hnone
    rw [hfront] at hnone
    cases hnone
  · rename_i hsome
    rw [hfront, Option.some.injEq, Prod.mk.injEq] at hsome
    rw [← hsome.1, ← hsome.2]

/-- That is the longest token there. -/
theorem scanFrom_token {token : Token} {behind : List Char} (hproper : token.Proper)
    (hlongest : token.Longest (token.chars ++ behind)) (offset : Nat) :
    scanFrom offset (token.chars ++ behind) =
      ⟨⟨token, offset, offset + byteLength token.chars⟩ ::
          (scanFrom (offset + byteLength token.chars) behind).lexemes,
        (scanFrom (offset + byteLength token.chars) behind).invalid⟩ := by
  have hfront := Token.front?_append hproper ((Token.longest_iff_ends hproper).mp hlongest)
  rcases hproper.chars_eq_cons with ⟨c, rest, hchars, hblank⟩
  have hcons : token.chars ++ behind = c :: (rest ++ behind) := by rw [hchars, List.cons_append]
  rw [hcons] at hfront ⊢
  exact scanFrom_front? hblank hfront offset

/-- What a scan starts with where nothing is blank: nothing at the end of the
    text, the longest token there is, or a byte where there is none. -/
theorem scanFrom_spec (offset : Nat) {text : List Char}
    (htext : ∀ c, text.head? = some c → isBlank c = false) :
    (text = [] ∧ scanFrom offset text = ⟨[], none⟩) ∨
      (text ≠ [] ∧ (∀ token : Token, token.Proper → ¬ token.chars <+: text) ∧
        scanFrom offset text = ⟨[], some offset⟩) ∨
      ∃ (token : Token) (behind : List Char), text = token.chars ++ behind ∧ token.Proper ∧
        token.Longest text := by
  cases text with
  | nil => exact Or.inl ⟨rfl, by rw [scanFrom]⟩
  | cons c rest =>
      cases hfront : Token.front? (c :: rest) with
      | none =>
          refine Or.inr (Or.inl ⟨List.cons_ne_nil c rest, fun token hproper hprefix => ?_, ?_⟩)
          · -- A token at the front would be a part of one that is taken off.
            rcases hprefix with ⟨behind, htext'⟩
            rcases hproper.exists_ends behind with ⟨token', behind', hproper', hends, heq, _⟩
            rw [← htext', heq, Token.front?_append hproper' hends] at hfront
            cases hfront
          · rw [scanFrom, if_neg (Bool.eq_false_iff.mp (htext c rfl))]
            split
            · rfl
            · rename_i hsome
              rw [hfront] at hsome
              cases hsome
      | some taken =>
          rcases taken with ⟨token, behind⟩
          rcases Token.front?_eq_some_iff.mp hfront with ⟨hproper, heq, hends⟩
          refine Or.inr (Or.inr ⟨token, behind, heq, hproper, ?_⟩)
          rw [heq]
          exact (Token.longest_iff_ends hproper).mpr hends

namespace Cuts

variable {offset stop : Nat} {text rest : List Char} {lexemes : List Lexeme}

/-- What is left does not start with a blank character. -/
theorem not_blank (h : Cuts offset text lexemes stop rest) :
    ∀ c, rest.head? = some c → isBlank c = false := by
  induction h with
  | here hrest => exact hrest
  | blank _ _ ih => exact ih
  | token _ _ _ ih => exact ih

theorem proper (h : Cuts offset text lexemes stop rest) :
    ∀ token ∈ lexemes.map Lexeme.token, token.Proper := by
  induction h with
  | here hrest => exact fun _ hmem => absurd hmem List.not_mem_nil
  | blank _ _ ih => exact ih
  | token proper _ _ ih =>
      rw [List.map_cons]
      exact List.forall_mem_cons.mpr ⟨proper, ih⟩

/-- A scan gives the lexemes that are cut off and goes on with what is left. -/
theorem scanFrom_eq (h : Cuts offset text lexemes stop rest) :
    scanFrom offset text =
      ⟨lexemes ++ (scanFrom stop rest).lexemes, (scanFrom stop rest).invalid⟩ := by
  induction h with
  | here hrest => rw [List.nil_append]
  | blank hblank _ ih => rw [scanFrom_blank hblank, ih]
  | token proper longest _ ih => rw [scanFrom_token proper longest, ih, List.cons_append]

/-- Where a character of what is left begins, one of the text does. -/
theorem boundary (h : Cuts offset text lexemes stop rest) {byte : Nat}
    (hbyte : Boundary stop rest byte) : Boundary offset text byte := by
  induction h with
  | here hrest => exact hbyte
  | blank _ _ ih => exact (ih hbyte).append [_]
  | token _ _ _ ih => exact (ih hbyte).append _

/-- A lexeme that is cut off ends between two characters. -/
theorem boundary_of_mem (h : Cuts offset text lexemes stop rest) {lexeme : Lexeme}
    (hmem : lexeme ∈ lexemes) : Boundary offset text lexeme.stop := by
  induction h with
  | here hrest => exact absurd hmem List.not_mem_nil
  | blank _ _ ih => exact (ih hmem).append [_]
  | @token offset stop token behind rest lexemes _ _ _ ih =>
      rcases List.mem_cons.mp hmem with rfl | hmem
      · exact ⟨token.chars, behind, rfl, rfl⟩
      · exact (ih hmem).append _

end Cuts

/-- The first lexemes of a scan, however many, can be cut off. -/
theorem exists_cuts (offset : Nat) (text : List Char) (front behind : List Lexeme)
    (h : (scanFrom offset text).lexemes = front ++ behind) :
    ∃ stop rest, Cuts offset text front stop rest := by
  fun_induction scanFrom offset text generalizing front with
  | case1 offset =>
      rw [(List.append_eq_nil_iff.mp h.symm).1]
      exact ⟨_, _, .here fun c hc => by cases hc⟩
  | case2 offset c rest hblank ih =>
      rcases ih _ h with ⟨stop, left, hcuts⟩
      exact ⟨stop, left, .blank hblank hcuts⟩
  | case3 offset c rest hblank hfront =>
      rw [(List.append_eq_nil_iff.mp h.symm).1]
      refine ⟨_, _, .here fun d hd => ?_⟩
      cases hd
      exact Bool.eq_false_iff.mpr hblank
  | case4 offset c rest hblank token left hfront stop later ih =>
      cases front with
      | nil =>
          refine ⟨_, _, .here fun d hd => ?_⟩
          cases hd
          exact Bool.eq_false_iff.mpr hblank
      | cons lexeme front =>
          rcases List.cons.inj h with ⟨rfl, hlater⟩
          rcases ih _ hlater with ⟨stop', rest', hcuts⟩
          rcases Token.front?_eq_some_iff.mp hfront with ⟨hproper, heq, hends⟩
          refine ⟨stop', rest', ?_⟩
          rw [heq]
          exact .token hproper ((Token.longest_iff_ends hproper).mpr hends) hcuts

theorem byteLength_eq (text : List Char) :
    byteLength text = (String.ofList text).utf8ByteSize := by
  induction text with
  | nil => rfl
  | cons c rest ih =>
      rw [String.ofList_cons, String.utf8ByteSize_append, String.utf8ByteSize_singleton, ← ih]
      rfl

/-- Boundaries between characters are those of their UTF-8 encoding. -/
theorem Boundary.isValid {text : String} {byte : Nat} (h : Boundary 0 text.toList byte) :
    (⟨byte⟩ : String.Pos.Raw).IsValid text := by
  rcases h with ⟨front, behind, htext, hbyte⟩
  rw [String.Pos.Raw.isValid_iff_exists_append]
  refine ⟨String.ofList front, String.ofList behind, ?_, ?_⟩
  · rw [← String.ofList_append, ← htext, String.ofList_toList]
  · rw [hbyte, Nat.zero_add, byteLength_eq]
    rfl

end Bnf

end EarleyForest
