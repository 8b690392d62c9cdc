import EarleyForest.Bnf.Notation
import EarleyForest.Bnf.Reader
import EarleyForest.Proofs.Bnf.Lexing

/-!
# What the Reader Accepts

The reader accepts the sequences of productions and nothing else, and gives
the rules that they write.

A place of the reader stands for the tokens that led to it within the
alternative at hand, behind the head of the production. What the reader gives
from a place on is what these tokens write together with those still to come:
each token either becomes one of them, or completes an alternative, whose rule
is then the first one written.

## Main definitions

* `tokenOf`: The token of a symbol in a body.
* `Place.read`: The tokens that a place stands for.

## Theorems

* `writeProductions_iff`: The first alternative of a production.
* `writeProductions_after?`: One token more.
* `rulesFrom_eq_ok_iff`, `readRules_eq_ok_iff`: The rules that are read.
* `readGrammar_iff_readRules`, `readGrammar_eq_ok_iff`: The grammars that are
  read.
-/

namespace EarleyForest

namespace Bnf

/-- The token of a symbol in a body. -/
def tokenOf : Symbol String String → Token
  | .terminal t => .quoted t.toList
  | .nonterminal n => .name n.toList

theorem symbol?_tokenOf (s : Symbol String String) : (tokenOf s).symbol? = some s := by
  cases s <;> simp only [tokenOf, Token.symbol?, String.ofList_toList]

/-- A token that stands for no symbol is not one of a symbol. -/
theorem tokenOf_ne {token : Token} (h : token.symbol? = none) (s : Symbol String String) :
    tokenOf s ≠ token := by
  rintro rfl
  rw [symbol?_tokenOf] at h
  cases h

theorem Token.eq_tokenOf {token : Token} {s : Symbol String String} (h : token.symbol? = some s) :
    token = tokenOf s := by
  cases token with
  | name text => cases h; rw [tokenOf, String.toList_ofList]
  | quoted text => cases h; rw [tokenOf, String.toList_ofList]
  | defines => cases h
  | semicolon => cases h
  | bar => cases h
  | epsilon => cases h

theorem map_symbol?_eq_iff {tokens : List Token} {body : List (Symbol String String)} :
    tokens.map Token.symbol? = body.map some ↔ tokens = body.map tokenOf := by
  constructor
  · intro h
    induction tokens generalizing body with
    | nil =>
        rw [List.map_nil, eq_comm, List.map_eq_nil_iff] at h
        rw [h, List.map_nil]
    | cons token rest ih =>
        cases body with
        | nil => cases h
        | cons s body =>
            rw [List.map_cons, List.map_cons, List.cons.injEq] at h
            rw [List.map_cons, ← ih h.2, ← Token.eq_tokenOf h.1]
  · rintro rfl
    rw [List.map_map]
    exact List.map_congr_left fun s _ => symbol?_tokenOf s

/-- A body is written as a lone `ε`, or symbol by symbol. -/
theorem writes_iff {tokens : List Token} {body : List (Symbol String String)} :
    Writes tokens body ↔ tokens = [.epsilon] ∧ body = [] ∨ tokens = body.map tokenOf := by
  constructor
  · intro h
    cases h with
    | epsilon => exact Or.inl ⟨rfl, rfl⟩
    | symbols each => exact Or.inr (map_symbol?_eq_iff.mp each)
  · rintro (⟨rfl, rfl⟩ | h)
    · exact .epsilon
    · exact .symbols (map_symbol?_eq_iff.mpr h)

/-- The symbols before the first token that is none are determined. -/
theorem map_tokenOf_append_inj {first second : List (Symbol String String)} {stop stop' : Token}
    {behind behind' : List Token} (hstop : stop.symbol? = none) (hstop' : stop'.symbol? = none)
    (h : first.map tokenOf ++ stop :: behind = second.map tokenOf ++ stop' :: behind') :
    first = second ∧ stop = stop' ∧ behind = behind' := by
  induction first generalizing second with
  | nil =>
      cases second with
      | nil =>
          cases h
          exact ⟨rfl, rfl, rfl⟩
      | cons s rest => exact absurd (List.cons.inj h).1.symm (tokenOf_ne hstop s)
  | cons s rest ih =>
      cases second with
      | nil => exact absurd (List.cons.inj h).1 (tokenOf_ne hstop' s)
      | cons s' rest' =>
          rcases List.cons.inj h with ⟨hs, hrest⟩
          rcases ih hrest with ⟨rfl, hstops, hbehind⟩
          have hsame := congrArg Token.symbol? hs
          rw [symbol?_tokenOf, symbol?_tokenOf, Option.some.injEq] at hsame
          exact ⟨congrArg (· :: rest) hsame, hstops, hbehind⟩

/-- A production starts with its first alternative. A semicolon behind it ends
    the production, and behind a bar come the others. -/
theorem writeProductions_iff {head : List Char} {tail : List Token}
    {rules : List (Rule String String)} :
    WriteProductions (.name head :: .defines :: tail) rules ↔
      ∃ front body stop behind later, tail = front ++ stop :: behind ∧ Writes front body ∧
        rules = ruleOf head body :: later ∧
        (stop = .semicolon ∧ WriteProductions behind later ∨
          stop = .bar ∧ WriteProductions (.name head :: .defines :: behind) later) := by
  constructor
  · intro h
    cases h with
    | @cons _ tokens rest rules others alternatives productions =>
        cases alternatives with
        | @last front body alternative =>
            exact ⟨front, body, .semicolon, rest, others, List.append_assoc _ _ _, alternative,
              rfl, Or.inl ⟨rfl, productions⟩⟩
        | @more front behind body rules alternative others' =>
            exact ⟨front, body, .bar, behind ++ rest, rules ++ others, List.append_assoc _ _ _,
              alternative, rfl, Or.inr ⟨rfl, .cons others' productions⟩⟩
  · rintro ⟨front, body, _, behind, later, rfl, hbody, rfl, ⟨rfl, hlater⟩ | ⟨rfl, hlater⟩⟩
    · have hfront : WriteAlternatives (String.ofList head) (front ++ [.semicolon])
          [ruleOf head body] := .last hbody
      have hlast := WriteProductions.cons hfront hlater
      rwa [List.cons_append, List.cons_append, List.append_assoc, List.singleton_append] at hlast
    · cases hlater with
      | @cons _ tokens rest rules others alternatives productions =>
          have hmore := WriteProductions.cons (.more hbody alternatives) productions
          rwa [List.cons_append, List.cons_append, List.append_assoc, List.cons_append] at hmore

/-- Behind symbols of a body, a token that is no symbol ends the alternative. -/
theorem writeProductions_symbols_iff {head : List Char} {symbols : List (Symbol String String)}
    {token : Token} {rest : List Token} {rules : List (Rule String String)}
    (hstop : token.symbol? = none) (hepsilon : symbols = [] → token ≠ .epsilon) :
    WriteProductions (.name head :: .defines :: (symbols.map tokenOf ++ token :: rest)) rules ↔
      ∃ later, rules = ruleOf head symbols :: later ∧
        (token = .semicolon ∧ WriteProductions rest later ∨
          token = .bar ∧ WriteProductions (.name head :: .defines :: rest) later) := by
  rw [writeProductions_iff]
  constructor
  · rintro ⟨front, body, stop, behind, later, htail, hbody, rfl, hlater⟩
    have hstop' : stop.symbol? = none := by
      rcases hlater with ⟨rfl, _⟩ | ⟨rfl, _⟩ <;> rfl
    rcases writes_iff.mp hbody with ⟨rfl, rfl⟩ | rfl
    · -- An ε that is alone would be the first token.
      cases symbols with
      | nil => exact absurd (List.cons.inj htail).1 (hepsilon rfl)
      | cons s others => exact absurd (List.cons.inj htail).1 (tokenOf_ne rfl s)
    · rcases map_tokenOf_append_inj hstop hstop' htail with ⟨rfl, rfl, rfl⟩
      exact ⟨later, rfl, hlater⟩
  · rintro ⟨later, rfl, hlater⟩
    exact ⟨_, symbols, token, rest, later, rfl, writes_iff.mpr (Or.inr rfl), rfl, hlater⟩

/-- Behind an `ε` the alternative has to end. -/
theorem writeProductions_epsilon_iff {head : List Char} {token : Token} {rest : List Token}
    {rules : List (Rule String String)} :
    WriteProductions (.name head :: .defines :: .epsilon :: token :: rest) rules ↔
      ∃ later, rules = ruleOf head [] :: later ∧
        (token = .semicolon ∧ WriteProductions rest later ∨
          token = .bar ∧ WriteProductions (.name head :: .defines :: rest) later) := by
  rw [writeProductions_iff]
  constructor
  · rintro ⟨front, body, stop, behind, later, htail, hbody, rfl, hlater⟩
    rcases writes_iff.mp hbody with ⟨rfl, rfl⟩ | rfl
    · cases htail
      exact ⟨later, rfl, hlater⟩
    · cases body with
      | nil =>
          cases htail
          rcases hlater with ⟨hstop, _⟩ | ⟨hstop, _⟩ <;> cases hstop
      | cons s others => exact absurd (List.cons.inj htail).1.symm (tokenOf_ne rfl s)
  · rintro ⟨later, rfl, hlater⟩
    exact ⟨[.epsilon], [], token, rest, later, rfl, .epsilon, rfl, hlater⟩

theorem WriteAlternatives.semicolon_mem {head : String} {tokens : List Token}
    {rules : List (Rule String String)} (h : WriteAlternatives head tokens rules) :
    .semicolon ∈ tokens := by
  induction h with
  | last alternative => exact List.mem_append_right _ (List.mem_singleton_self _)
  | more alternative others ih => exact List.mem_append_right _ (List.mem_cons_of_mem _ ih)

/-- Productions have a semicolon, if there are any. -/
theorem WriteProductions.semicolon_mem {tokens : List Token} {rules : List (Rule String String)}
    (h : WriteProductions tokens rules) : tokens = [] ∨ .semicolon ∈ tokens := by
  cases h with
  | nil => exact Or.inl rfl
  | cons alternatives productions =>
      refine Or.inr (List.mem_cons_of_mem _ (List.mem_cons_of_mem _ ?_))
      exact List.mem_append_left _ alternatives.semicolon_mem

namespace Place

/-- The tokens that a place stands for: those of the alternative at hand, behind
    the head of its production. -/
def read : Place → List Token
  | outside => []
  | named head => [.name head]
  | within head symbols => .name head :: .defines :: symbols.map tokenOf
  | lone head => [.name head, .defines, .epsilon]

/-- What tokens behind a place write, said with the place behind the first of
    them. -/
def Continues (place : Place) (token : Token) (rest : List Token)
    (rules : List (Rule String String)) : Prop :=
  ∃ completed next later, place.after? token = some (completed, next) ∧
    rules = completed.toList ++ later ∧ WriteProductions (next.read ++ rest) later

theorem continues_of_read {place next : Place} {token : Token} {rest : List Token}
    {rules : List (Rule String String)} (hafter : place.after? token = some (none, next))
    (hread : next.read = place.read ++ [token]) :
    WriteProductions (place.read ++ token :: rest) rules ↔ place.Continues token rest rules := by
  have hmoved : next.read ++ rest = place.read ++ token :: rest := by
    rw [hread, List.append_assoc, List.singleton_append]
  rw [Continues, hafter, ← hmoved]
  constructor
  · exact fun h => ⟨none, next, rules, rfl, rfl, h⟩
  · rintro ⟨completed, next', later, hsome, rfl, hlater⟩
    cases hsome
    exact hlater

theorem continues_of_completed {place next : Place} {token : Token} {rest : List Token}
    {rule : Rule String String} {rules : List (Rule String String)}
    (hafter : place.after? token = some (some rule, next))
    (h : WriteProductions (place.read ++ token :: rest) rules ↔
      ∃ later, rules = rule :: later ∧ WriteProductions (next.read ++ rest) later) :
    WriteProductions (place.read ++ token :: rest) rules ↔ place.Continues token rest rules := by
  rw [h, Continues, hafter]
  constructor
  · rintro ⟨later, rfl, hlater⟩
    exact ⟨some rule, next, later, rfl, rfl, hlater⟩
  · rintro ⟨completed, next', later, hsome, rfl, hlater⟩
    cases hsome
    exact ⟨later, rfl, hlater⟩

theorem continues_of_refused {place : Place} {token : Token} {rest : List Token}
    {rules : List (Rule String String)} (hafter : place.after? token = none)
    (h : ¬ WriteProductions (place.read ++ token :: rest) rules) :
    WriteProductions (place.read ++ token :: rest) rules ↔ place.Continues token rest rules := by
  refine ⟨fun hwrites => absurd hwrites h, ?_⟩
  rintro ⟨completed, next, later, hsome, _⟩
  rw [hafter] at hsome
  cases hsome

/-- A symbol more is read as the notation has it. -/
theorem read_within_concat (head : List Char) (symbols : List (Symbol String String))
    (s : Symbol String String) :
    (within head (symbols ++ [s])).read = (within head symbols).read ++ [tokenOf s] := by
  simp only [read, List.map_append, List.map_cons, List.map_nil, List.cons_append]

/-- Within an alternative a token is read as the notation has it. -/
theorem writeProductions_within (head : List Char) (symbols : List (Symbol String String))
    (token : Token) (rest : List Token) (rules : List (Rule String String)) :
    WriteProductions ((within head symbols).read ++ token :: rest) rules ↔
      (within head symbols).Continues token rest rules := by
  cases token with
  | name text =>
      have hread := read_within_concat head symbols (.nonterminal (String.ofList text))
      rw [tokenOf, String.toList_ofList] at hread
      exact continues_of_read rfl hread
  | quoted text =>
      have hread := read_within_concat head symbols (.terminal (String.ofList text))
      rw [tokenOf, String.toList_ofList] at hread
      exact continues_of_read rfl hread
  | defines =>
      refine continues_of_refused rfl fun h => ?_
      rcases (writeProductions_symbols_iff rfl (fun _ => Token.noConfusion)).mp h with
        ⟨later, _, ⟨hstop, _⟩ | ⟨hstop, _⟩⟩ <;> cases hstop
  | semicolon =>
      refine continues_of_completed rfl
        ((writeProductions_symbols_iff rfl fun _ => Token.noConfusion).trans ?_)
      simp only [reduceCtorEq, true_and, false_and, or_false, read, List.nil_append]
  | bar =>
      refine continues_of_completed rfl
        ((writeProductions_symbols_iff rfl fun _ => Token.noConfusion).trans ?_)
      simp only [reduceCtorEq, true_and, false_and, false_or, read, List.map_nil, List.cons_append,
        List.nil_append]
  | epsilon =>
      cases symbols with
      | nil => exact continues_of_read rfl rfl
      | cons s others =>
          refine continues_of_refused rfl fun h => ?_
          rcases (writeProductions_symbols_iff rfl (fun hnil => by cases hnil)).mp h with
            ⟨later, _, ⟨hstop, _⟩ | ⟨hstop, _⟩⟩ <;> cases hstop

/-- Behind an `ε` a token is read as the notation has it. -/
theorem writeProductions_lone (head : List Char) (token : Token) (rest : List Token)
    (rules : List (Rule String String)) :
    WriteProductions ((lone head).read ++ token :: rest) rules ↔
      (lone head).Continues token rest rules := by
  have hrefused : token ≠ .semicolon → token ≠ .bar →
      ¬ WriteProductions ((lone head).read ++ token :: rest) rules := by
    intro hsemicolon hbar h
    rcases writeProductions_epsilon_iff.mp h with ⟨_, _, ⟨hstop, _⟩ | ⟨hstop, _⟩⟩
    · exact hsemicolon hstop
    · exact hbar hstop
  cases token with
  | semicolon =>
      refine continues_of_completed rfl (writeProductions_epsilon_iff.trans ?_)
      simp only [reduceCtorEq, true_and, false_and, or_false, read, List.nil_append]
  | bar =>
      refine continues_of_completed rfl (writeProductions_epsilon_iff.trans ?_)
      simp only [reduceCtorEq, true_and, false_and, false_or, read, List.map_nil,
        List.cons_append, List.nil_append]
  | name text => exact continues_of_refused rfl (hrefused Token.noConfusion Token.noConfusion)
  | quoted text => exact continues_of_refused rfl (hrefused Token.noConfusion Token.noConfusion)
  | defines => exact continues_of_refused rfl (hrefused Token.noConfusion Token.noConfusion)
  | epsilon => exact continues_of_refused rfl (hrefused Token.noConfusion Token.noConfusion)

/-- One token more is read as the notation has it. -/
theorem writeProductions_after? (place : Place) (token : Token) (rest : List Token)
    (rules : List (Rule String String)) :
    WriteProductions (place.read ++ token :: rest) rules ↔ place.Continues token rest rules := by
  cases place with
  | outside =>
      cases token with
      | name head => exact continues_of_read rfl rfl
      | quoted text => exact continues_of_refused rfl fun h => by cases h
      | defines => exact continues_of_refused rfl fun h => by cases h
      | semicolon => exact continues_of_refused rfl fun h => by cases h
      | bar => exact continues_of_refused rfl fun h => by cases h
      | epsilon => exact continues_of_refused rfl fun h => by cases h
  | named head =>
      cases token with
      | defines => exact continues_of_read rfl rfl
      | name text => exact continues_of_refused rfl fun h => by cases h
      | quoted text => exact continues_of_refused rfl fun h => by cases h
      | semicolon => exact continues_of_refused rfl fun h => by cases h
      | bar => exact continues_of_refused rfl fun h => by cases h
      | epsilon => exact continues_of_refused rfl fun h => by cases h
  | within head symbols => exact writeProductions_within head symbols token rest rules
  | lone head => exact writeProductions_lone head token rest rules

/-- A place within a production is not the end of one. -/
theorem not_writeProductions_read {place : Place} (h : place ≠ outside)
    (rules : List (Rule String String)) : ¬ WriteProductions place.read rules := by
  intro hwrites
  have hmem := hwrites.semicolon_mem
  cases place with
  | outside => exact h rfl
  | named head =>
      simp only [read, List.mem_singleton, reduceCtorEq, List.cons_ne_nil, or_self] at hmem
  | within head symbols =>
      rcases hmem with hnil | hmem
      · cases hnil
      · simp only [read, List.mem_cons, reduceCtorEq, List.mem_map, false_or] at hmem
        rcases hmem with ⟨s, _, hs⟩
        exact tokenOf_ne rfl s hs
  | lone head => simp only [read, List.mem_cons, reduceCtorEq, List.not_mem_nil, or_self] at hmem

end Place

/-- From a place on the reader gives the rules that the tokens read and those
    to come write, if every part of the text is a token. -/
theorem rulesFrom_eq_ok_iff (place : Place) (offset : Nat) (invalid : Option Nat)
    (lexemes : List Lexeme) (rules : List (Rule String String)) :
    rulesFrom place offset invalid lexemes = .ok rules ↔
      invalid = none ∧ WriteProductions (place.read ++ lexemes.map Lexeme.token) rules := by
  induction lexemes generalizing place offset rules with
  | nil =>
      rw [List.map_nil, List.append_nil]
      cases invalid with
      | some byte => exact ⟨fun h => (by cases h), fun h => (by cases h.1)⟩
      | none =>
          by_cases hplace : place = .outside
          · subst hplace
            constructor
            · intro h
              cases h
              exact ⟨rfl, .nil⟩
            · rintro ⟨_, h⟩
              cases h
              rfl
          · have hend : rulesFrom place offset none [] =
                .error (.unexpectedEnd [] offset) := by
              cases place <;> first | exact absurd rfl hplace | rfl
            rw [hend]
            exact ⟨fun h => (by cases h),
              fun h => absurd h.2 (Place.not_writeProductions_read hplace _)⟩
  | cons found rest ih =>
      rw [List.map_cons, Place.writeProductions_after?, Place.Continues, rulesFrom]
      cases hafter : place.after? found.token with
      | none =>
          refine ⟨fun h => (by cases h), ?_⟩
          rintro ⟨_, completed, next, later, hsome, _⟩
          cases hsome
      | some move =>
          rcases move with ⟨completed, next⟩
          constructor
          · intro h
            cases hlater : rulesFrom next found.stop invalid rest with
            | error error =>
                simp only [hlater] at h
                cases h
            | ok later =>
                simp only [hlater] at h
                cases h
                rcases (ih next found.stop later).mp hlater with ⟨hinvalid, hwrites⟩
                exact ⟨hinvalid, completed, next, later, rfl, rfl, hwrites⟩
          · rintro ⟨hinvalid, completed', next', later, hsome, rfl, hwrites⟩
            cases hsome
            simp only [(ih next found.stop later).mpr ⟨hinvalid, hwrites⟩]

/-- The rules that are read are those that the tokens of a text write. -/
theorem readRules_eq_ok_iff {text : List Char} {rules : List (Rule String String)} :
    readRules text = .ok rules ↔ ∃ tokens, Lexes text tokens ∧ WriteProductions tokens rules := by
  rw [readRules, rulesFrom_eq_ok_iff]
  constructor
  · rintro ⟨hinvalid, hwrites⟩
    exact ⟨_, (scanFrom_iff_lexes 0 text _).mp ⟨hinvalid, rfl⟩, hwrites⟩
  · rintro ⟨tokens, hlexes, hwrites⟩
    rcases (scanFrom_iff_lexes 0 text tokens).mpr hlexes with ⟨hinvalid, rfl⟩
    exact ⟨hinvalid, hwrites⟩

/-- Productions start with a name, if there are any. -/
theorem WriteProductions.starts {tokens : List Token} {rules : List (Rule String String)}
    (h : WriteProductions tokens rules) :
    tokens = [] ∧ rules = [] ∨ ∃ head rest, tokens = .name head :: rest := by
  cases h with
  | nil => exact Or.inl ⟨rfl, rfl⟩
  | cons alternatives productions => exact Or.inr ⟨_, _, rfl⟩

/-- The first rule that is written has the head of the first production. -/
theorem WriteProductions.head?_eq {head : List Char} {tokens : List Token}
    {rules : List (Rule String String)} (h : WriteProductions (.name head :: tokens) rules) :
    rules.head?.map Rule.head = some (String.ofList head) := by
  cases h with
  | cons alternatives productions =>
      cases alternatives with
      | last alternative => rfl
      | more alternative others => rfl

/-- A text gives a grammar if it gives its rules, if the first of them is the
    start symbol's, and if no body mentions a nonterminal without a rule. -/
theorem readGrammar_iff_readRules {text : String} {g : Grammar String String} :
    readGrammar text = .ok g ↔ readRules text.toList = .ok g.rules ∧
      g.rules.head?.map Rule.head = some g.start ∧
      ∀ r ∈ g.rules, ∀ n, .nonterminal n ∈ r.body → g.Declares n := by
  rcases g with ⟨start, rules⟩
  unfold readGrammar
  cases hread : readRules text.toList with
  | error error => exact ⟨fun h => (by cases h), fun h => (by cases h.1)⟩
  | ok read =>
      cases read with
      | nil =>
          refine ⟨fun h => (by cases h), ?_⟩
          rintro ⟨hrules, hhead, _⟩
          cases hrules
          cases hhead
      | cons first rest =>
          -- The start symbol has the first rule, so only the bodies can fail.
          have hvalid := Grammar.validate_eq_ok_iff (g := ⟨first.head, first :: rest⟩)
          have hstart : (⟨first.head, first :: rest⟩ : Grammar String String).Declares first.head :=
            ⟨first, List.mem_cons_self, rfl⟩
          simp only
          cases hcheck : (⟨first.head, first :: rest⟩ : Grammar String String).validate with
          | error flaw =>
              rw [hcheck] at hvalid
              refine ⟨fun h => (by cases h), ?_⟩
              rintro ⟨hrules, hhead, hbodies⟩
              cases hrules
              cases hhead
              cases hvalid.mpr ⟨hstart, hbodies⟩
          | ok valid =>
              constructor
              · intro h
                cases h
                exact ⟨rfl, rfl, (hvalid.mp hcheck).2⟩
              · rintro ⟨hrules, hhead, _⟩
                cases hrules
                cases hhead
                rfl

/-- A text is read if it is cut into tokens that are productions, one or more,
    and if every nonterminal of a body is the head of one. The grammar has the
    rules that the tokens write, and the head of the first production as its
    start symbol. -/
theorem readGrammar_eq_ok_iff (text : String) (g : Grammar String String) :
    readGrammar text = .ok g ↔ ∃ head tokens, Lexes text.toList (.name head :: tokens) ∧
      WriteProductions (.name head :: tokens) g.rules ∧ g.start = String.ofList head ∧
      ∀ r ∈ g.rules, ∀ n, .nonterminal n ∈ r.body → g.Declares n := by
  rw [readGrammar_iff_readRules, readRules_eq_ok_iff]
  constructor
  · rintro ⟨⟨tokens, hlexes, hwrites⟩, hhead, hbodies⟩
    rcases hwrites.starts with ⟨_, hnil⟩ | ⟨head, rest, rfl⟩
    · rw [hnil] at hhead
      cases hhead
    · have hstart := hhead.symm.trans hwrites.head?_eq
      exact ⟨head, rest, hlexes, hwrites, Option.some.inj hstart, hbodies⟩
  · rintro ⟨head, tokens, hlexes, hwrites, hstart, hbodies⟩
    exact ⟨⟨_, hlexes, hwrites⟩, by rw [hwrites.head?_eq, hstart], hbodies⟩

end Bnf

end EarleyForest
