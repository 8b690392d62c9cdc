import EarleyForest.Proofs.Bnf.Cutting
import EarleyForest.Proofs.Bnf.Merged
import EarleyForest.Proofs.Bnf.Stopping

/-!
# What Is Wrong with a Text

A syntax error is about the first token that cannot continue. Of all ways to
cut tokens off the front of the text such that these are the beginning of some
productions, one goes furthest, and the error is about what stands behind it: a
place where no token begins, a token with which no productions go on, or the
end of the text. What comes later in the text has no part in it, even if no
token begins there.

Which kinds could stand there is told by a generated parser, and how all this is
worded is told by its wording. Both are parameters, of which only what makes
them lawful is known.

## Main definitions

* `Furthest`: As many tokens as can be the beginning of productions.

## Theorems

* `furthest_of_reads`: The reader stops behind as many tokens as there can be.
* `stop_of_readRules`: Where it stops in the text, and why.
* `expected_of_reads`: What a generated parser expects there.
* `readGrammar_malformed`: What a syntax error says.
-/

namespace EarleyForest

namespace Bnf

/-- Lexemes at the front of a text that are the beginning of productions, as
    many as there can be. The text goes on at byte `offset` with `rest`. -/
structure Furthest (text : List Char) (lexemes : List Lexeme) (offset : Nat) (rest : List Char) :
    Prop where
  cuts : Cuts 0 text lexemes offset rest
  viable : Viable (lexemes.map Lexeme.token)
  most {lexemes' : List Lexeme} {offset' : Nat} {rest' : List Char} :
    Cuts 0 text lexemes' offset' rest' → Viable (lexemes'.map Lexeme.token) →
    lexemes'.length ≤ lexemes.length

/-- If the token behind those that the reader has gone through leads nowhere,
    there are as many of these as there can be. -/
theorem furthest_of_reads {text : List Char} {front behind : List Lexeme} {last : Place}
    (hscan : (scanFrom 0 text).lexemes = front ++ behind)
    (hreads : Place.outside.Reads (front.map Lexeme.token) last)
    (hstop : ∀ found later, behind = found :: later → last.after? found.token = none) :
    ∃ offset rest, Furthest text front offset rest ∧
      (scanFrom offset rest).lexemes = behind ∧
      (scanFrom offset rest).invalid = (scanFrom 0 text).invalid := by
  rcases exists_cuts 0 text front behind hscan with ⟨offset, rest, hcuts⟩
  have heq := hcuts.scanFrom_eq
  refine ⟨offset, rest, ⟨hcuts, hreads.viable hcuts.proper, ?_⟩, ?_, by rw [heq]⟩
  · intro lexemes' offset' rest' hcuts' hviable'
    -- Both are the first lexemes of one scan, so one goes on from the other.
    have hboth := hscan.symm.trans (congrArg Scan.lexemes hcuts'.scanFrom_eq)
    rcases List.append_eq_append_iff.mp hboth with ⟨more, rfl, hmore⟩ | ⟨more, rfl, _⟩
    · cases more with
      | nil => exact Nat.le_of_eq (by rw [List.append_nil])
      | cons found later =>
          refine absurd ?_ (hreads.not_viable (hstop found _ hmore) (later.map Lexeme.token))
          rwa [List.map_append, List.map_cons] at hviable'
    · rw [List.length_append]
      exact Nat.le_add_right _ _
  · rw [heq] at hscan
    exact List.append_cancel_left hscan

/-- Where the reader stops in a text, and why: the text goes on with no token,
    or with one that leads nowhere, or it ends though a production does not. -/
theorem stop_of_readRules {text : List Char} {error : SyntaxError}
    (h : readRules text = .error error) :
    ∃ front offset rest place, Furthest text front offset rest ∧
      Place.outside.Reads (front.map Lexeme.token) place ∧
      ((rest ≠ [] ∧ (∀ token : Token, token.Proper → ¬ token.chars <+: rest) ∧
          error = .invalidToken offset) ∨
        (∃ token behind, rest = token.chars ++ behind ∧ token.Proper ∧ token.Longest rest ∧
          place.after? token = none ∧
          error = .unexpectedToken (front.map Lexeme.kind)
            ⟨token, offset, offset + byteLength token.chars⟩) ∨
        rest = [] ∧ place ≠ .outside ∧ ∃ last, front.getLast? = some last ∧
          error = .unexpectedEnd (front.map Lexeme.kind) last.stop) := by
  rcases stop_of_rulesFrom h with ⟨front, behind, place, hscan, hreads, hstop⟩
  have hblocked : ∀ found later, behind = found :: later → place.after? found.token = none := by
    rintro found later rfl
    rcases hstop with ⟨found', later', hbehind, hafter, _⟩ | ⟨_, hnil, _⟩ | ⟨hnil, _⟩
    · cases hbehind
      exact hafter
    · cases hnil
    · cases hnil
  rcases furthest_of_reads hscan hreads hblocked with
    ⟨offset, rest, hfurthest, hlexemes, hinvalid⟩
  refine ⟨front, offset, rest, place, hfurthest, hreads, ?_⟩
  -- A scan of what is left finds a token, if that is why the reader stops, or
  -- else tells whether the text has ended.
  rcases scanFrom_spec offset hfurthest.cuts.not_blank with
    ⟨hrest, hend⟩ | ⟨hrest, hnone, hend⟩ | ⟨token, behind', hrest, hproper, hlongest⟩
  · rw [hend] at hlexemes hinvalid
    subst hlexemes
    rcases hstop with ⟨_, _, hbehind, _⟩ | ⟨byte, _, hbyte, _⟩ | ⟨_, _, hplace, herror⟩
    · cases hbehind
    · cases hinvalid.trans hbyte
    · -- The reader has gone through a token, as it is within a production.
      cases hlast : front.getLast? with
      | none =>
          rw [List.getLast?_eq_none_iff.mp hlast] at hreads
          cases hreads
          exact absurd rfl hplace
      | some last =>
          rw [hlast] at herror
          exact Or.inr (Or.inr ⟨hrest, hplace, last, rfl, herror⟩)
  · rw [hend] at hlexemes hinvalid
    subst hlexemes
    rcases hstop with ⟨_, _, hbehind, _⟩ | ⟨byte, _, hbyte, herror⟩ | ⟨_, hnoByte, _⟩
    · cases hbehind
    · cases hinvalid.trans hbyte
      exact Or.inl ⟨hrest, hnone, herror⟩
    · cases hinvalid.trans hnoByte
  · have hcons := scanFrom_token hproper (hrest ▸ hlongest) offset
    rw [hrest, hcons] at hlexemes
    subst hlexemes
    rcases hstop with ⟨found, later, hbehind, hafter, herror⟩ | ⟨_, hnil, _⟩ | ⟨hnil, _⟩
    · cases hbehind
      exact Or.inr (Or.inl ⟨token, behind', hrest, hproper, hlongest, hafter, herror⟩)
    · cases hnil
    · cases hnil

theorem readRules_of_malformed {text : String} {error : SyntaxError}
    (h : readGrammar text = .error (.malformed error)) :
    readRules text.toList = .error error := by
  unfold readGrammar at h
  split at h
  · rename_i error' hread
    cases h
    exact hread
  · cases h
  · simp only at h
    split at h <;> cases h

/-- What a lawful parser expects where the reader stops: all the kinds with
    which productions go on, and not what has been found. -/
theorem expected_of_reads {gen : Generated} (hgen : gen.Lawful) {lexemes : List Lexeme}
    {place : Place} {found : Option Token.Kind}
    (h : Place.outside.Reads (lexemes.map Lexeme.token) place) (hrefuses : place.Refuses found) :
    (∀ kind, Follows (lexemes.map Lexeme.token) kind →
        gen.name kind ∈ gen.expected (lexemes.map Lexeme.kind) found) ∧
      ∀ kind ∈ found, gen.name kind ∉ gen.expected (lexemes.map Lexeme.kind) found := by
  have hkinds : lexemes.map Lexeme.kind = (lexemes.map Lexeme.token).map Token.kind :=
    List.map_map.symm
  rcases stops_of_reads hgen.table h hrefuses with ⟨state, below, hstop, haccepts, hnone⟩
  rw [hkinds]
  constructor
  · intro kind hfollows
    exact (hgen.mem_expected_iff hstop).mpr ⟨kind, haccepts kind (h.mem_accepts hfollows), rfl⟩
  · rintro kind rfl hlisted
    rcases (hgen.mem_expected_iff hstop).mp hlisted with ⟨kind', hacts, hname⟩
    rw [hgen.name_inj hname, hnone] at hacts
    cases hacts

/-- What a syntax error says. As many tokens as can be the beginning of
    productions are cut off the front of the text. If no token begins behind
    them, though the text goes on, that byte is reported. If a token stands
    there, it is reported with its text and its bytes. Otherwise the text ends,
    and the end of the last token is reported.

    All kinds with which productions can go on there are listed as expected, by
    their names, and the kind of the token found is not. The bytes reported are
    boundaries of characters. -/
theorem readGrammar_malformed (gen : Generated) (hgen : gen.Lawful) {text : String}
    {error : SyntaxError} (h : readGrammar text = .error (.malformed error)) :
    ∃ lexemes offset rest, Furthest text.toList lexemes offset rest ∧
      ((rest ≠ [] ∧ (∀ token : Token, token.Proper → ¬ token.chars <+: rest) ∧
          error = .invalidToken offset ∧ error.message gen = s!"Invalid token at {offset}" ∧
          (⟨offset⟩ : String.Pos.Raw).IsValid text) ∨
        (∃ (token : Token) (behind : List Char) (stop : Nat) (expected : List String)
          (line : String), rest = token.chars ++ behind ∧ token.Proper ∧ token.Longest rest ∧
          stop = offset + byteLength token.chars ∧
          error = .unexpectedToken (lexemes.map Lexeme.kind) ⟨token, offset, stop⟩ ∧
          error.message gen =
            s!"Unrecognized token `{String.ofList token.chars}` found at {offset}:{stop}" ++ line ∧
          Listing expected line ∧
          expected = gen.expected (lexemes.map Lexeme.kind) (some token.kind) ∧
          (∀ kind, Follows (lexemes.map Lexeme.token) kind → gen.name kind ∈ expected) ∧
          gen.name token.kind ∉ expected ∧
          (⟨offset⟩ : String.Pos.Raw).IsValid text ∧ (⟨stop⟩ : String.Pos.Raw).IsValid text) ∨
        rest = [] ∧ ∃ last expected line, lexemes.getLast? = some last ∧
          error = .unexpectedEnd (lexemes.map Lexeme.kind) last.stop ∧
          error.message gen = s!"Unrecognized EOF found at {last.stop}" ++ line ∧
          Listing expected line ∧ expected = gen.expected (lexemes.map Lexeme.kind) none ∧
          (∀ kind, Follows (lexemes.map Lexeme.token) kind → gen.name kind ∈ expected) ∧
          (⟨last.stop⟩ : String.Pos.Raw).IsValid text) := by
  rcases stop_of_readRules (readRules_of_malformed h) with
    ⟨front, offset, rest, place, hfurthest, hreads, hstop⟩
  have hcuts := hfurthest.cuts
  have hoffset : (⟨offset⟩ : String.Pos.Raw).IsValid text :=
    (hcuts.boundary (.first offset rest)).isValid
  refine ⟨front, offset, rest, hfurthest, ?_⟩
  rcases hstop with ⟨hrest, hnone, rfl⟩ |
    ⟨token, behind, hrest, hproper, hlongest, hafter, rfl⟩ | ⟨hrest, hplace, last, hlast, rfl⟩
  · exact Or.inl ⟨hrest, hnone, rfl, hgen.invalidToken offset, hoffset⟩
  · rcases hgen.unrecognizedToken (String.ofList token.chars) offset
      (offset + byteLength token.chars) (gen.expected (front.map Lexeme.kind) (some token.kind))
      with ⟨line, hline, hmessage⟩
    have hrefuses : place.Refuses (some token.kind) := Place.after?_eq_none_iff.mp hafter
    rcases expected_of_reads hgen hreads hrefuses with ⟨hfollows, hfound⟩
    exact Or.inr (Or.inl ⟨token, behind, _, _, line, hrest, hproper, hlongest, rfl, rfl, hmessage,
      hline, rfl, hfollows, hfound _ rfl, hoffset,
      (hcuts.boundary ⟨token.chars, behind, hrest, rfl⟩).isValid⟩)
  · rcases hgen.unrecognizedEnd last.stop (gen.expected (front.map Lexeme.kind) none)
      with ⟨line, hline, hmessage⟩
    have hrefuses : place.Refuses none := hplace
    exact Or.inr (Or.inr ⟨hrest, last, _, line, hlast, rfl, hmessage, hline, rfl,
      (expected_of_reads hgen hreads hrefuses).1,
      (hcuts.boundary_of_mem (List.mem_of_getLast? hlast)).isValid⟩)

/-- An `ε` that is not alone, behind a letter of two bytes. That no token begins
    with the last character is not reported. -/
theorem readGrammar_epsilon_behind_symbol :
    ∃ error, readGrammar "a ::= 'é' ε ?" = .error (.malformed error) ∧
      Generated.merged.Lawful ∧ error.message .merged =
        "Unrecognized token `ε` found at 11:13\n" ++
          "Expected one of \";\", \"|\", r#\"'[^']*'\"# or r#\"[A-Za-z_][A-Za-z0-9_]*\"#" ∧
      (∃ lexemes rest, Furthest "a ::= 'é' ε ?".toList lexemes 11 rest ∧
        ∀ kind, Follows (lexemes.map Lexeme.token) kind →
          kind ∈ [Token.Kind.semicolon, .bar, .quoted, .name]) ∧
      (⟨13⟩ : String.Pos.Raw).IsValid "a ::= 'é' ε ?" := by
  have hread : readGrammar "a ::= 'é' ε ?" = .error (.malformed
      (.unexpectedToken [.name, .defines, .quoted] ⟨.epsilon, 11, 13⟩)) := by
    have htext : "a ::= 'é' ε ?".toList =
        ['a', ' ', ':', ':', '=', ' ', '\'', 'é', '\'', ' ', 'ε', ' ', '?'] := by decide
    have hname : Token.front?
        ['a', ' ', ':', ':', '=', ' ', '\'', 'é', '\'', ' ', 'ε', ' ', '?'] =
        some (.name ['a'], [' ', ':', ':', '=', ' ', '\'', 'é', '\'', ' ', 'ε', ' ', '?']) := by
      decide
    have hquoted : Token.front? ['\'', 'é', '\'', ' ', 'ε', ' ', '?'] =
        some (.quoted ['é'], [' ', 'ε', ' ', '?']) := by decide
    unfold readGrammar readRules scan
    rw [htext, scanFrom_front? rfl hname, scanFrom_blank rfl, scanFrom_front? rfl rfl,
      scanFrom_blank rfl, scanFrom_front? rfl hquoted, scanFrom_blank rfl, scanFrom_front? rfl rfl]
    rfl
  have hexpected : Generated.merged.expected [.name, .defines, .quoted] (some .epsilon) =
      [Token.Kind.semicolon, .bar, .quoted, .name].map Token.Kind.text := rfl
  refine ⟨_, hread, lawful_merged, ?_, ?_⟩
  · simp only [SyntaxError.message, SyntaxError.report, Lexeme.kind, Token.kind, hexpected]
    decide +kernel
  · rcases readGrammar_malformed .merged lawful_merged hread with
      ⟨lexemes, offset, rest, hfurthest, hcase⟩
    rcases hcase with ⟨_, _, herror, _⟩ |
      ⟨_, _, _, _, _, _, _, _, _, herror, _, _, hlist, hfollows, _, _, hstop⟩ |
      ⟨_, _, _, _, _, herror, _⟩
    · cases herror
    · rw [SyntaxError.unexpectedToken.injEq, Lexeme.mk.injEq] at herror
      rcases herror with ⟨hkinds, rfl, rfl, rfl⟩
      rw [← hkinds, Token.kind, hexpected] at hlist
      refine ⟨⟨lexemes, rest, hfurthest, fun kind hkind => ?_⟩, hstop⟩
      rw [hlist] at hfollows
      rcases List.mem_map.mp (hfollows kind hkind) with ⟨kind', hmem, hname⟩
      rwa [← lawful_merged.name_inj hname]
    · cases herror

end Bnf

end EarleyForest
