import EarleyForest.Proofs.Bnf.Reading
import EarleyForest.Proofs.Grammar.Offenders

/-!
# Why a Text Gives No Grammar

A text is refused at one of three stages. It may be no sequence of productions;
it may be one of no productions; and the rules that it gives may mention a
nonterminal that heads none of them. A later stage is not reached if an earlier
one refuses, so the order of the stages is the order of precedence.

The start symbol is the head of the first rule, which leaves one of the two
flaws of a grammar impossible here. What passes all stages has been checked in
the way in which a parser checks its grammar.

## Theorems

* `lexes_no_token_iff`, `writeProductions_no_rule_iff`: What gives nothing.
* `readGrammar_cases`: The stages of reading.
* `readGrammar_eq_malformed_iff`, `readGrammar_eq_empty_iff`,
  `readGrammar_eq_undeclared_iff`: When each stage refuses.
* `refusals_exact`: Which errors grammars and texts have.
-/

namespace EarleyForest

namespace Bnf

/-- A text without tokens is blank. -/
theorem lexes_no_token_iff {text : List Char} :
    Lexes text [] ↔ ∀ c ∈ text, isBlank c = true := by
  induction text with
  | nil => exact ⟨fun _ c hc => absurd hc List.not_mem_nil, fun _ => .nil⟩
  | cons c rest ih =>
      rw [List.forall_mem_cons]
      cases hblank : isBlank c with
      | true => rw [lexes_blank_iff hblank, ih, eq_self_iff_true, true_and]
      | false =>
          -- Something that is not blank is the beginning of a token.
          rw [lexes_front?_iff hblank]
          constructor
          · rintro ⟨_, _, _, _, hnil, _⟩
            cases hnil
          · rintro ⟨hc, _⟩
            cases hc

/-- Each production writes at least one rule. -/
theorem writeProductions_no_rule_iff {tokens : List Token} :
    WriteProductions tokens [] ↔ tokens = [] := by
  constructor
  · intro h
    rcases h.starts with ⟨hnil, _⟩ | ⟨head, rest, rfl⟩
    · exact hnil
    · cases h.head?_eq
  · rintro rfl
    exact .nil

/-- The stages of reading: the rules of the text, whether there are any, and
    the check of the grammar that they make. -/
theorem readGrammar_cases (text : String) :
    (∃ error, readRules text.toList = .error error ∧
      readGrammar text = .error (.malformed error)) ∨
    (readRules text.toList = .ok [] ∧ readGrammar text = .error .empty) ∨
    ∃ first rest, readRules text.toList = .ok (first :: rest) ∧
      ((∃ flaw, (⟨first.head, first :: rest⟩ : Grammar String String).validate = .error flaw ∧
          readGrammar text = .error (.flawed flaw)) ∨
        (⟨first.head, first :: rest⟩ : Grammar String String).validate = .ok () ∧
          readGrammar text = .ok ⟨first.head, first :: rest⟩) := by
  unfold readGrammar
  cases hread : readRules text.toList with
  | error error => exact Or.inl ⟨error, rfl, rfl⟩
  | ok rules =>
      cases rules with
      | nil => exact Or.inr (Or.inl ⟨rfl, rfl⟩)
      | cons first rest =>
          refine Or.inr (Or.inr ⟨first, rest, rfl, ?_⟩)
          simp only
          cases hcheck : (⟨first.head, first :: rest⟩ : Grammar String String).validate with
          | error flaw => exact Or.inl ⟨flaw, rfl, rfl⟩
          | ok valid => exact Or.inr ⟨rfl, rfl⟩

/-- A text that is no sequence of productions is refused for that, whatever
    else may be wrong with it. -/
theorem readGrammar_eq_malformed_iff {text : String} :
    (∃ error, readGrammar text = .error (.malformed error)) ↔
      ¬ ∃ tokens rules, Lexes text.toList tokens ∧ WriteProductions tokens rules := by
  have hrules : (∃ tokens rules, Lexes text.toList tokens ∧ WriteProductions tokens rules) ↔
      ∃ rules, readRules text.toList = .ok rules := by
    simp only [readRules_eq_ok_iff]
    exact exists_comm
  rw [hrules]
  rcases readGrammar_cases text with ⟨error, hread, h⟩ | ⟨hread, h⟩ |
    ⟨first, rest, hread, ⟨flaw, _, h⟩ | ⟨_, h⟩⟩ <;>
    simp only [hread, h, reduceCtorEq, Except.error.injEq, ReadError.malformed.injEq,
      Except.ok.injEq, exists_false, exists_eq', not_false_eq_true, not_true_eq_false]

/-- A text is refused as empty if and only if it is blank. -/
theorem readGrammar_eq_empty_iff {text : String} :
    readGrammar text = .error .empty ↔ ∀ c ∈ text.toList, isBlank c = true := by
  have hblank : (∀ c ∈ text.toList, isBlank c = true) ↔ readRules text.toList = .ok [] := by
    rw [readRules_eq_ok_iff, ← lexes_no_token_iff]
    simp only [writeProductions_no_rule_iff, exists_eq_right]
  rw [hblank]
  rcases readGrammar_cases text with ⟨error, hread, h⟩ | ⟨hread, h⟩ |
    ⟨first, rest, hread, ⟨flaw, _, h⟩ | ⟨_, h⟩⟩ <;>
    simp only [hread, h, reduceCtorEq, Except.error.injEq, Except.ok.injEq]

/-- The head of the first rule is a start symbol that heads a rule. -/
theorem declares_first_head (first : Rule String String) (rest : List (Rule String String)) :
    (⟨first.head, first :: rest⟩ : Grammar String String).Declares first.head :=
  ⟨first, List.mem_cons_self, rfl⟩

theorem readGrammar_ne_missingStart (text start : String) :
    readGrammar text ≠ .error (.flawed (.missingStart start)) := by
  rcases readGrammar_cases text with ⟨error, _, h⟩ | ⟨_, h⟩ |
    ⟨first, rest, _, ⟨flaw, hflaw, h⟩ | ⟨_, h⟩⟩
  case inr.inr.inl =>
    rw [h]
    intro heq
    cases heq
    exact (Grammar.validate_eq_missingStart_iff.mp hflaw).2 (declares_first_head first rest)
  all_goals simp only [h, ne_eq, reduceCtorEq, not_false_eq_true, Except.error.injEq]

/-- A text is refused for a nonterminal if and only if it is a sequence of
    productions and the nonterminal is the first offender among their rules,
    which are numbered one after the other through all alternatives. -/
theorem readGrammar_eq_undeclared_iff {text : String} {rule : Nat} {n : String} :
    readGrammar text = .error (.flawed (.undeclared rule n)) ↔
      ∃ head tokens rules, Lexes text.toList (.name head :: tokens) ∧
        WriteProductions (.name head :: tokens) rules ∧
        (⟨String.ofList head, rules⟩ : Grammar String String).FirstUndeclared rule n := by
  constructor
  · intro hread
    rcases readGrammar_cases text with ⟨error, _, h⟩ | ⟨_, h⟩ |
      ⟨first, rest, hrules, ⟨flaw, hflaw, h⟩ | ⟨_, h⟩⟩
    case inr.inr.inl =>
      rw [h] at hread
      cases hread
      rcases readRules_eq_ok_iff.mp hrules with ⟨tokens, hlexes, hwrites⟩
      rcases hwrites.starts with ⟨_, hnil⟩ | ⟨head, tail, rfl⟩
      · cases hnil
      · -- The first rule has the head of the first production.
        have hhead : first.head = String.ofList head := Option.some.inj hwrites.head?_eq
        refine ⟨head, tail, first :: rest, hlexes, hwrites, ?_⟩
        rw [← hhead]
        exact (Grammar.validate_eq_undeclared_iff.mp hflaw).2
    all_goals cases h.symm.trans hread
  · rintro ⟨head, tokens, rules, hlexes, hwrites, hfirst⟩
    have hrules := readRules_eq_ok_iff.mpr ⟨_, hlexes, hwrites⟩
    rcases readGrammar_cases text with ⟨error, hread, _⟩ | ⟨hread, _⟩ | ⟨first, rest, hread, hcheck⟩
    · cases hread.symm.trans hrules
    · cases hread.symm.trans hrules
      cases hwrites.head?_eq
    · cases hread.symm.trans hrules
      have hhead : first.head = String.ofList head := Option.some.inj hwrites.head?_eq
      rw [← hhead] at hfirst
      have hflaw := Grammar.validate_eq_undeclared_iff.mpr ⟨declares_first_head first rest, hfirst⟩
      rcases hcheck with ⟨flaw, hflaw', h⟩ | ⟨hvalid, _⟩
      · cases hflaw'.symm.trans hflaw
        exact h
      · cases hvalid.symm.trans hflaw

/-- What is read has been checked. -/
theorem validate_of_readGrammar {text : String} {g : Grammar String String}
    (hread : readGrammar text = .ok g) : g.validate = .ok () := by
  rcases readGrammar_cases text with ⟨error, _, h⟩ | ⟨_, h⟩ |
    ⟨first, rest, _, ⟨flaw, _, h⟩ | ⟨hvalid, h⟩⟩
  case inr.inr.inr =>
    cases h.symm.trans hread
    exact hvalid
  all_goals cases h.symm.trans hread

end Bnf

/-- A grammar is refused for its start symbol if and only if that heads no
    rule. Otherwise it is refused if and only if some body mentions a
    nonterminal that heads no rule, and the error names the first of those
    rules and the leftmost such nonterminal in its body. All others are
    accepted. The parser refuses what the check refuses.

    A text that is no sequence of productions is refused for its syntax. Others
    are refused as empty if and only if they are blank, never for their start
    symbol, and for a nonterminal if and only if it is the first offender among
    the rules that the productions write. What is read, a parser accepts. -/
theorem refusals_exact {T N : Type} [DecidableEq N] (g : Grammar T N) (spelling : Spelling T N)
    (text : String) :
    ((∀ start, g.validate = .error (.missingStart start) ↔
        start = g.start ∧ ¬ g.Declares g.start) ∧
      (∀ rule n, g.validate = .error (.undeclared rule n) ↔
        g.Declares g.start ∧ g.FirstUndeclared rule n) ∧
      ((∃ rule n, g.validate = .error (.undeclared rule n)) ↔
        g.Declares g.start ∧ ∃ r ∈ g.rules, ∃ n, .nonterminal n ∈ r.body ∧ ¬ g.Declares n) ∧
      (g.validate = .ok () ↔
        g.Declares g.start ∧ ∀ r ∈ g.rules, ∀ n, .nonterminal n ∈ r.body → g.Declares n) ∧
      (∀ flaw, Parser.ofGrammar g spelling = .error flaw ↔ g.validate = .error flaw) ∧
      ((∃ p, Parser.ofGrammar g spelling = .ok p ∧ p.grammar = g) ↔ g.validate = .ok ())) ∧
    ((∃ error, Bnf.readGrammar text = .error (.malformed error)) ↔
        ¬ ∃ tokens rules, Bnf.Lexes text.toList tokens ∧ Bnf.WriteProductions tokens rules) ∧
    (Bnf.readGrammar text = .error .empty ↔ ∀ c ∈ text.toList, isBlank c = true) ∧
    (∀ start, Bnf.readGrammar text ≠ .error (.flawed (.missingStart start))) ∧
    (∀ rule n, Bnf.readGrammar text = .error (.flawed (.undeclared rule n)) ↔
      ∃ head tokens rules, Bnf.Lexes text.toList (.name head :: tokens) ∧
        Bnf.WriteProductions (.name head :: tokens) rules ∧
        (⟨String.ofList head, rules⟩ : Grammar String String).FirstUndeclared rule n) ∧
    ∀ g', Bnf.readGrammar text = .ok g' → ∀ spelling',
      ∃ p, Parser.ofGrammar g' spelling' = .ok p ∧ p.grammar = g' := by
  refine ⟨⟨fun start => Grammar.validate_eq_missingStart_iff,
    fun rule n => Grammar.validate_eq_undeclared_iff, ?_, Grammar.validate_eq_ok_iff,
    fun flaw => Parser.ofGrammar_eq_error_iff, ?_⟩,
    Bnf.readGrammar_eq_malformed_iff, Bnf.readGrammar_eq_empty_iff,
    Bnf.readGrammar_ne_missingStart text, fun rule n => Bnf.readGrammar_eq_undeclared_iff,
    fun g' hread spelling' => ?_⟩
  · simp only [Grammar.validate_eq_undeclared_iff, exists_and_left,
      Grammar.exists_firstUndeclared_iff]
  · constructor
    · rintro ⟨p, _, rfl⟩
      exact p.valid
    · exact fun hvalid => ⟨_, Parser.ofGrammar_eq_ok hvalid spelling, rfl⟩
  · have hvalid := Bnf.validate_of_readGrammar hread
    exact ⟨_, Parser.ofGrammar_eq_ok hvalid spelling', rfl⟩

end EarleyForest
