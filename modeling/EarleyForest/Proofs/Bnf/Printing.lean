import EarleyForest.Bnf.Printer
import EarleyForest.Proofs.Bnf.Reading

/-!
# Grammars That Read Back

The text of a grammar is cut into the tokens of its rules, one rule after the
other, if the reader can tell the words from each other: nonterminals have to
be spelled like names, and terminals must not hold an apostrophe. Anything
else may stand in a terminal, marks and line breaks included. The tokens write
the rules in the order in which they are printed, the first one of the start
symbol before the others.

## Main definitions

* `IsName`: A text is spelled like a name.
* `Rule.Legible`, `Grammar.Legible`: What can be written so that it is read.
* `startBehind`: A grammar that is read in another order.
* `bodyTokens`, `Rule.tokens`: The tokens of a body and of a rule.

## Theorems

* `lexes_rules`: The text of rules is cut into their tokens.
* `writeProductions_tokens`: The tokens of rules write them.
* `startFirst_eq`: The rules in the order in which they are printed.
* `legible_of_readGrammar`: What is read can be written.
* `reads_back`: What is written is read.
-/

namespace EarleyForest

open Bnf

/-- A text is spelled like a name. -/
def IsName (text : String) : Prop := (Token.name text.toList).Proper

/-- The symbols of a rule can be told from each other in its text. -/
structure Rule.Legible (r : Rule String String) : Prop where
  head : IsName r.head
  nonterminal {n : String} : .nonterminal n ∈ r.body → IsName n
  terminal {t : String} : .terminal t ∈ r.body → '\'' ∉ t.toList

/-- A grammar is valid and its symbols can be told from each other in its
    text. -/
structure Grammar.Legible (g : Grammar String String) : Prop where
  start : g.Declares g.start
  body {r : Rule String String} {n : String} : r ∈ g.rules → .nonterminal n ∈ r.body → g.Declares n
  rule {r : Rule String String} : r ∈ g.rules → r.Legible

/-- Symbols stand for themselves. -/
def Spelling.plain : Spelling String String := ⟨id, id⟩

/-- The tokens of a body. -/
def bodyTokens (body : List (Symbol String String)) : List Token :=
  if body.isEmpty then [.epsilon] else body.map tokenOf

/-- The tokens of a rule, with the mark that ends it. -/
def Rule.tokens (r : Rule String String) : List Token :=
  .name r.head.toList :: .defines :: (bodyTokens r.body ++ [.semicolon])

namespace Bnf

/-- A token with a space behind it is the longest one at its place. -/
theorem Lexes.spaced {token : Token} {behind : List Char} {tokens : List Token}
    (hproper : token.Proper) (hspace : behind.head? = some ' ') (later : Lexes behind tokens) :
    Lexes (token.chars ++ behind) (token :: tokens) := by
  refine .token hproper ((Token.longest_iff_ends hproper).mpr ?_) later
  cases token with
  | name text =>
      intro c hc
      rw [hspace] at hc
      cases hc
      decide
  | quoted text => trivial
  | defines => trivial
  | semicolon => trivial
  | bar => trivial
  | epsilon => trivial

theorem Lexes.space {text : List Char} {tokens : List Token} (h : Lexes text tokens) :
    Lexes (' ' :: text) tokens := .blank (by decide) h

end Bnf

theorem Rule.Legible.proper {r : Rule String String} (h : r.Legible) {s : Symbol String String}
    (hs : s ∈ r.body) : (tokenOf s).Proper := by
  cases s with
  | terminal t => exact h.terminal hs
  | nonterminal n => exact h.nonterminal hs

theorem Symbol.toList_text (s : Symbol String String) :
    (s.text .plain).toList = (tokenOf s).chars := by
  cases s with
  | terminal t => simp only [text, Spelling.plain, id, String.toList_append]; rfl
  | nonterminal n => rfl

/-- Symbols with a space before each are cut into their tokens. -/
theorem lexes_symbols {symbols : List (Symbol String String)}
    (hproper : ∀ s ∈ symbols, (tokenOf s).Proper) {behind : List Char} {tokens : List Token}
    (hspace : behind.head? = some ' ') (later : Lexes behind tokens) :
    Lexes (symbols.flatMap (fun s => ' ' :: (tokenOf s).chars) ++ behind)
      (symbols.map tokenOf ++ tokens) := by
  induction symbols with
  | nil => exact later
  | cons s rest ih =>
      rcases List.forall_mem_cons.mp hproper with ⟨hs, hrest⟩
      rw [List.flatMap_cons, List.append_assoc, List.map_cons, List.cons_append, List.cons_append]
      refine Lexes.space (.spaced hs ?_ (ih hrest))
      -- Behind the symbol comes the space before the next one, or what follows.
      cases rest with
      | nil => exact hspace
      | cons s' rest' => rfl

/-- What is printed behind the `::=` of a rule. -/
def bodyChars (body : List (Symbol String String)) : List Char :=
  if body.isEmpty then [' ', 'ε'] else body.flatMap fun s => ' ' :: (tokenOf s).chars

theorem Rule.toList_text (r : Rule String String) :
    (r.text .plain).toList = r.head.toList ++ " ::=".toList ++ bodyChars r.body := by
  rw [text, String.toList_append, String.toList_append, bodyChars]
  congr 1
  split
  · rfl
  · simp only [String.toList_join, List.flatMap_map, String.toList_append, Symbol.toList_text]
    rfl

/-- A space stands before a body. -/
theorem head?_bodyChars (body : List (Symbol String String)) (behind : List Char) :
    (bodyChars body ++ behind).head? = some ' ' := by
  cases body with
  | nil => rfl
  | cons s rest => rfl

/-- A body is cut into its tokens. -/
theorem lexes_body {body : List (Symbol String String)}
    (hproper : ∀ s ∈ body, (tokenOf s).Proper) {behind : List Char} {tokens : List Token}
    (hspace : behind.head? = some ' ') (later : Lexes behind tokens) :
    Lexes (bodyChars body ++ behind) (bodyTokens body ++ tokens) := by
  unfold bodyChars bodyTokens
  split
  · exact .space (.spaced (show Token.epsilon.Proper from trivial) hspace later)
  · exact lexes_symbols hproper hspace later

/-- The text of rules is cut into their tokens. -/
theorem lexes_rules {rules : List (Rule String String)} (hlegible : ∀ r ∈ rules, r.Legible) :
    Lexes (String.join (rules.map fun r => r.text .plain ++ " ;\n")).toList
      (rules.flatMap Rule.tokens) := by
  rw [String.toList_join, List.flatMap_map]
  induction rules with
  | nil => exact .nil
  | cons r rest ih =>
      rcases List.forall_mem_cons.mp hlegible with ⟨hr, hrest⟩
      have hmark : Token.semicolon.Proper := trivial
      -- The line break belongs to no token.
      have hend := Lexes.space (.token hmark ((Token.longest_iff_ends hmark).mpr trivial)
        (.blank (c := '\n') (by decide) (ih hrest)))
      have hbody := lexes_body (fun s => hr.proper) rfl hend
      have hdefines := Lexes.space (.spaced (show Token.defines.Proper from trivial)
        (head?_bodyChars r.body _) hbody)
      have hhead := Lexes.spaced hr.head rfl hdefines
      rw [List.flatMap_cons, List.flatMap_cons, String.toList_append, Rule.toList_text,
        Rule.tokens]
      simp only [List.append_assoc, List.cons_append, List.nil_append]
      exact hhead

theorem writes_bodyTokens (body : List (Symbol String String)) :
    Writes (bodyTokens body) body := by
  refine writes_iff.mpr ?_
  cases body with
  | nil => exact Or.inl ⟨rfl, rfl⟩
  | cons s rest => exact Or.inr rfl

/-- The tokens of rules write them. -/
theorem writeProductions_tokens (rules : List (Rule String String)) :
    WriteProductions (rules.flatMap Rule.tokens) rules := by
  induction rules with
  | nil => exact .nil
  | cons r rest ih =>
      have hr : WriteAlternatives (String.ofList r.head.toList)
          (bodyTokens r.body ++ [.semicolon]) [r] := by
        rw [String.ofList_toList]
        exact .last (writes_bodyTokens r.body)
      exact .cons hr ih

namespace Grammar

section

variable {T N : Type} [DecidableEq N] {g : Grammar T N}

/-- The first rule of the start symbol is printed before the others. -/
theorem startFirst_eq (hstart : g.Declares g.start) :
    ∃ before first after, g.rules = before ++ first :: after ∧ first.head = g.start ∧
      (∀ r ∈ before, r.head ≠ g.start) ∧ g.startFirst = first :: (before ++ after) := by
  rcases hstart with ⟨r, hr, hhead⟩
  have hsome : (g.rules.find? fun r => r.head = g.start).isSome :=
    List.find?_isSome.mpr ⟨r, hr, decide_eq_true hhead⟩
  rcases Option.isSome_iff_exists.mp hsome with ⟨first, hfirst⟩
  rcases List.find?_eq_some_iff_append.mp hfirst with ⟨hof, before, after, hrules, hbefore⟩
  have hothers : ∀ r ∈ before, r.head ≠ g.start := fun r hr => by
    simpa only [Bool.not_eq_true', decide_eq_false_iff_not] using hbefore r hr
  have herase : (g.rules.eraseP fun r => r.head = g.start) = before ++ after := by
    rw [hrules, List.eraseP_append_right _ fun r hr h => hothers r hr (of_decide_eq_true h)]
    exact congrArg (before ++ ·) (List.eraseP_cons_of_pos hof)
  refine ⟨before, first, after, hrules, of_decide_eq_true hof, hothers, ?_⟩
  rw [startFirst, hfirst, herase]
  rfl

theorem mem_startFirst (hstart : g.Declares g.start) {r : Rule T N} :
    r ∈ g.startFirst ↔ r ∈ g.rules := by
  rcases startFirst_eq hstart with ⟨before, first, after, hrules, _, _, hfirst⟩
  rw [hfirst, hrules]
  simp only [List.mem_cons, List.mem_append]
  exact or_left_comm

/-- The rules are printed in their order if the start symbol has the first. -/
theorem startFirst_eq_self (h : g.rules.head?.map Rule.head = some g.start) :
    g.startFirst = g.rules := by
  rcases Option.map_eq_some_iff.mp h with ⟨r, hr, hstart⟩
  rcases startFirst_eq ⟨r, List.mem_of_head? hr, hstart⟩ with
    ⟨before, first, after, hrules, _, hbefore, hfirst⟩
  cases before with
  | nil => exact hfirst.trans hrules.symm
  | cons r' rest =>
      rw [hrules, List.cons_append, List.head?_cons, Option.some.injEq] at hr
      exact absurd hstart (hr ▸ hbefore r' List.mem_cons_self)

end

/-- A legible grammar is read with the first rule of its start symbol before
    the others. -/
theorem Legible.readGrammar_text {g : Grammar String String} (h : g.Legible) :
    readGrammar (g.text .plain) = .ok ⟨g.start, g.startFirst⟩ := by
  rcases startFirst_eq h.start with ⟨before, first, after, hrules, hhead, _, hfirst⟩
  have hlexes := lexes_rules fun r hr => h.rule ((mem_startFirst h.start).mp hr)
  refine readGrammar_iff_readRules.mpr ⟨?_, ?_, ?_⟩
  · exact readRules_eq_ok_iff.mpr ⟨_, hlexes, writeProductions_tokens _⟩
  · rw [hfirst, ← hhead]
    rfl
  · intro r hr n hn
    rcases h.body ((mem_startFirst h.start).mp hr) hn with ⟨r', hr', hhead'⟩
    exact ⟨r', (mem_startFirst h.start).mpr hr', hhead'⟩

end Grammar

theorem Rule.legible_of_writes {head : String} (hhead : IsName head) {tokens : List Token}
    {body : List (Symbol String String)} (h : Writes tokens body)
    (hproper : ∀ token ∈ tokens, token.Proper) : (⟨head, body⟩ : Rule String String).Legible := by
  have hbody : ∀ s ∈ body, (tokenOf s).Proper := by
    rcases writes_iff.mp h with ⟨_, rfl⟩ | rfl
    · exact fun _ hs => absurd hs List.not_mem_nil
    · exact fun s hs => hproper _ (List.mem_map_of_mem hs)
  exact ⟨hhead, fun hn => hbody _ hn, fun ht => hbody _ ht⟩

theorem legible_of_writeAlternatives {head : String} (hhead : IsName head) {tokens : List Token}
    {rules : List (Rule String String)} (h : WriteAlternatives head tokens rules)
    (hproper : ∀ token ∈ tokens, token.Proper) : ∀ r ∈ rules, r.Legible := by
  induction h with
  | last alternative =>
      have hfront := (List.forall_mem_append.mp hproper).1
      exact List.forall_mem_singleton.mpr (Rule.legible_of_writes hhead alternative hfront)
  | more alternative others ih =>
      rcases List.forall_mem_append.mp hproper with ⟨hfront, hbehind⟩
      exact List.forall_mem_cons.mpr ⟨Rule.legible_of_writes hhead alternative hfront,
        ih (List.forall_mem_cons.mp hbehind).2⟩

/-- Rules that proper tokens write are legible. -/
theorem legible_of_writeProductions {tokens : List Token} {rules : List (Rule String String)}
    (h : WriteProductions tokens rules) (hproper : ∀ token ∈ tokens, token.Proper) :
    ∀ r ∈ rules, r.Legible := by
  induction h with
  | nil => exact fun _ hr => absurd hr List.not_mem_nil
  | @cons head tokens rest rules others alternatives productions ih =>
      rcases List.forall_mem_append.mp hproper with ⟨hfirst, hrest⟩
      rcases List.forall_mem_cons.mp hfirst with ⟨hname, hdefined⟩
      have hhead : IsName (String.ofList head) := by
        rw [IsName, String.toList_ofList]
        exact hname
      have htokens := (List.forall_mem_cons.mp hdefined).2
      exact List.forall_mem_append.mpr
        ⟨legible_of_writeAlternatives hhead alternatives htokens, ih hrest⟩

/-- What is read can be written, and its first rule is one of the start
    symbol. -/
theorem legible_of_readGrammar {text : String} {g : Grammar String String}
    (h : readGrammar text = .ok g) :
    g.Legible ∧ g.rules.head?.map Rule.head = some g.start := by
  rcases readGrammar_iff_readRules.mp h with ⟨hrules, hhead, hbodies⟩
  rcases readRules_eq_ok_iff.mp hrules with ⟨tokens, hlexes, hwrites⟩
  have hrule := legible_of_writeProductions hwrites hlexes.proper
  refine ⟨⟨?_, fun hr hn => hbodies _ hr _ hn, fun hr => hrule _ hr⟩, hhead⟩
  rcases Option.map_eq_some_iff.mp hhead with ⟨first, hfirst, hstart⟩
  exact ⟨first, List.mem_of_head? hfirst, hstart⟩

/-- A grammar is read back from its text, the same but for the place of one
    rule, if the symbols of its rules can be told from each other there and if
    every nonterminal of a body and the start symbol head a rule: the first
    rule of the start symbol then is before the others, which keep their order.
    The very grammar is read back if and only if that rule was the first one.
    A grammar that has been read is such a grammar. -/
theorem reads_back (g : Grammar String String) :
    (g.Legible → ∃ before first after, g.rules = before ++ first :: after ∧
      first.head = g.start ∧ (∀ r ∈ before, r.head ≠ g.start) ∧
      readGrammar (g.text .plain) = .ok ⟨g.start, first :: (before ++ after)⟩) ∧
    (readGrammar (g.text .plain) = .ok g ↔
      g.Legible ∧ g.rules.head?.map Rule.head = some g.start) ∧
    ∀ text, readGrammar text = .ok g → readGrammar (g.text .plain) = .ok g := by
  have hback : g.Legible ∧ g.rules.head?.map Rule.head = some g.start →
      readGrammar (g.text .plain) = .ok g := by
    rintro ⟨hlegible, hhead⟩
    rw [hlegible.readGrammar_text, Grammar.startFirst_eq_self hhead]
  refine ⟨fun hlegible => ?_, ⟨legible_of_readGrammar, hback⟩,
    fun text h => hback (legible_of_readGrammar h)⟩
  rcases Grammar.startFirst_eq hlegible.start with
    ⟨before, first, after, hrules, hhead, hbefore, hfirst⟩
  refine ⟨before, first, after, hrules, hhead, hbefore, ?_⟩
  rw [hlegible.readGrammar_text, hfirst]

/-- A grammar whose start symbol has the second rule, and whose terminals hold
    marks and a line break. -/
def startBehind : Grammar String String :=
  ⟨"S", [⟨"A_1", [.terminal "| ε ;\n", .terminal ""]⟩, ⟨"S", [.nonterminal "A_1"]⟩, ⟨"A_1", []⟩]⟩

theorem startBehind_reads_back :
    startBehind.Legible ∧
    (∃ before first after, startBehind.rules = before ++ first :: after ∧ first.head = "S" ∧
      (∀ r ∈ before, r.head ≠ "S") ∧
      readGrammar (startBehind.text .plain) = .ok ⟨"S", first :: (before ++ after)⟩) ∧
    ∃ g, readGrammar (startBehind.text .plain) = .ok g ∧ readGrammar (g.text .plain) = .ok g := by
  have hA : IsName "A_1" := ⟨'A', ['_', '1'], rfl, by decide, List.all_eq_true.mp (by decide)⟩
  have hS : IsName "S" := ⟨'S', [], rfl, by decide, List.all_eq_true.mp (by decide)⟩
  have hlegible : startBehind.Legible := by
    refine ⟨by decide, fun {r n} hr hn => ?_, fun {r} hr => ?_⟩
    · simp only [startBehind, List.mem_cons, List.not_mem_nil, or_false] at hr
      rcases hr with rfl | rfl | rfl <;> simp at hn
      subst hn
      decide
    · simp only [startBehind, List.mem_cons, List.not_mem_nil, or_false] at hr
      rcases hr with rfl | rfl | rfl
      · exact ⟨hA, by simp, by simp⟩
      · exact ⟨hS, by simp [hA], by simp⟩
      · exact ⟨hA, by simp, by simp⟩
  have hread := (reads_back startBehind).1 hlegible
  rcases hread with ⟨before, first, after, hrules, hhead, hbefore, hback⟩
  exact ⟨hlegible, ⟨before, first, after, hrules, hhead, hbefore, hback⟩, _, hback,
    (reads_back _).2.2 _ hback⟩

end EarleyForest
