import EarleyForest.Bnf.Merged
import EarleyForest.Proofs.Grammar.Table

/-!
# States and Spots

A table for the grammar of the notation may have more states than the merged
one. But each of its states stands for one of the merged table's. It has the
same rules with the same dots, and apart from the state behind a name also the
same items, because it makes no difference to what may come next whether a
production is the first one or an alternative the last. So both tables do the
same in all states but that one.

## Main definitions

* `firsts`: What may come next, as a list.
* `predicted`: The items that an item calls for.
* `grounded`: Items of which each is called for by one before.
* `Stands`: A state stands for a spot.

## Theorems

* `first_iff`: What may come next is listed.
* `mem_predicted_iff`: An item calls for those that are predicted.
* `ahead_mem_follow`: What may come behind an item.
* `stands_start`, `Stands.goto`: The start stands for the beginning, and a step
  leads to a state that stands for what the step leads to.
* `Stands.goto_eq_none`, `Stands.reduce_eq`: A state does what its spot does.
-/

namespace EarleyForest

namespace Bnf

open Spot

/-- What may come next, if these symbols are to come and behind them `ahead`.
    Of the phrases only those are looked into that stand behind others. -/
def firsts : List (Symbol Token.Kind Phrase) → Option Token.Kind → List (Option Token.Kind)
  | [], ahead => [ahead]
  | .terminal kind :: _, _ => [some kind]
  | .nonterminal .production :: _, _ => [some .name]
  | .nonterminal .atom :: _, _ => [some .quoted, some .name]
  | .nonterminal _ :: _, _ => []

/-- Symbols of which `firsts` tells what may come next. -/
def leads : List (Symbol Token.Kind Phrase) → Bool
  | .nonterminal phrase :: _ => phrase = .production ∨ phrase = .atom
  | _ => true

section

variable {rest : List (Symbol Token.Kind Phrase)} {ahead next : Option Token.Kind}

/-- A phrase that is always one word starts with that. -/
theorem first_word_iff {phrase : Phrase} {kind : Token.Kind}
    (hrule : ∀ r ∈ grammar.rules, r.head = phrase → r = ⟨phrase, [.terminal kind]⟩)
    (hmem : ⟨phrase, [.terminal kind]⟩ ∈ grammar.rules) :
    grammar.First ahead (.nonterminal phrase :: rest) next ↔ next = some kind := by
  rw [Grammar.first_nonterminal_iff]
  constructor
  · rintro ⟨r, hr, hhead, hbody⟩
    rw [hrule r hr hhead] at hbody
    exact Grammar.first_terminal_iff.mp hbody
  · exact fun hnext => ⟨_, hmem, rfl, Grammar.first_terminal_iff.mpr hnext⟩

theorem first_name_iff :
    grammar.First ahead (.nonterminal .name :: rest) next ↔ next = some .name :=
  first_word_iff (by decide) (by decide)

theorem first_quoted_iff :
    grammar.First ahead (.nonterminal .quoted :: rest) next ↔ next = some .quoted :=
  first_word_iff (by decide) (by decide)

/-- A production starts with the name that is its head. -/
theorem first_production_iff :
    grammar.First ahead (.nonterminal .production :: rest) next ↔ next = some .name := by
  have hstart : ∀ r ∈ grammar.rules, r.head = .production →
      r.body.head? = some (.nonterminal .name) := by decide
  rw [Grammar.first_nonterminal_iff]
  constructor
  · rintro ⟨r, hr, hhead, hbody⟩
    rcases List.head?_eq_some_iff.mp (hstart r hr hhead) with ⟨behind, hparts⟩
    rw [hparts] at hbody
    exact first_name_iff.mp hbody
  · intro hnext
    exact ⟨_, List.mem_of_getElem? (i := 5) rfl, rfl, first_name_iff.mpr hnext⟩

/-- An atom is a quoted terminal or a name. -/
theorem first_atom_iff : grammar.First ahead (.nonterminal .atom :: rest) next ↔
    next = some .quoted ∨ next = some .name := by
  have hbodies : ∀ r ∈ grammar.rules, r.head = .atom →
      r.body = [.nonterminal .name] ∨ r.body = [.nonterminal .quoted] := by decide
  rw [Grammar.first_nonterminal_iff]
  constructor
  · rintro ⟨r, hr, hhead, hbody⟩
    rcases hbodies r hr hhead with hparts | hparts
    · rw [hparts] at hbody
      exact Or.inr (first_name_iff.mp hbody)
    · rw [hparts] at hbody
      exact Or.inl (first_quoted_iff.mp hbody)
  · rintro (hnext | hnext)
    · exact ⟨⟨.atom, [.nonterminal .quoted]⟩, by decide, rfl, first_quoted_iff.mpr hnext⟩
    · exact ⟨⟨.atom, [.nonterminal .name]⟩, by decide, rfl, first_name_iff.mpr hnext⟩

theorem first_iff {symbols : List (Symbol Token.Kind Phrase)} (h : leads symbols = true) :
    grammar.First ahead symbols next ↔ next ∈ firsts symbols ahead := by
  cases symbols with
  | nil => rw [Grammar.first_nil_iff, firsts, List.mem_singleton]
  | cons s rest =>
      cases s with
      | terminal kind => rw [Grammar.first_terminal_iff, firsts, List.mem_singleton]
      | nonterminal phrase =>
          rw [leads, decide_eq_true_eq] at h
          rcases h with rfl | rfl
          · rw [first_production_iff, firsts, List.mem_singleton]
          · rw [first_atom_iff, firsts, List.mem_cons, List.mem_singleton]

end

/-- What may come behind a phrase in a body. -/
theorem first_behind_iff {r : Rule Token.Kind Phrase} (hr : r ∈ grammar.rules) {dot : Nat}
    {phrase : Phrase} (hs : r.body[dot]? = some (.nonterminal phrase))
    {ahead next : Option Token.Kind} :
    grammar.First ahead (r.body.drop (dot + 1)) next ↔
      next ∈ firsts (r.body.drop (dot + 1)) ahead := by
  -- Behind a phrase there is another one only if that is a production or an
  -- atom.
  have hleads : ∀ r ∈ grammar.rules, ∀ dot < r.body.length,
      (r.body[dot]?.bind Symbol.nonterminal?).isSome = true →
        leads (r.body.drop (dot + 1)) = true := by decide
  refine first_iff (hleads r hr dot (List.getElem?_eq_some_iff.mp hs).1 ?_)
  rw [hs]
  rfl

/-- The items that an item calls for. -/
def predicted (item : Table.Item Token.Kind) : List (Table.Item Token.Kind) :=
  grammar.rules[item.rule]?.toList.flatMap fun r : Rule Token.Kind Phrase =>
    (r.body[item.dot]?.bind Symbol.nonterminal?).toList.flatMap fun phrase =>
      (grammar.rulesFor phrase).flatMap fun rule =>
        (firsts (r.body.drop (item.dot + 1)) item.ahead).map fun next => ⟨rule, 0, next⟩

theorem mem_predicted_iff {item item' : Table.Item Token.Kind} :
    item' ∈ predicted item ↔ item'.dot = 0 ∧ ∃ r r', grammar.rules[item.rule]? = some r ∧
      grammar.rules[item'.rule]? = some r' ∧ r.body[item.dot]? = some (.nonterminal r'.head) ∧
      grammar.First item.ahead (r.body.drop (item.dot + 1)) item'.ahead := by
  simp only [predicted, List.mem_flatMap, Option.mem_toList, List.mem_map,
    Option.bind_eq_some_iff]
  constructor
  · rintro ⟨r, hr, phrase, ⟨s, hs, hphrase⟩, rule, hrule, next, hnext, rfl⟩
    cases s with
    | terminal t => cases hphrase
    | nonterminal phrase' =>
        cases hphrase
        rcases Grammar.mem_rulesFor_iff.mp hrule with ⟨r', hr', rfl⟩
        exact ⟨rfl, r, r', hr, hr', hs, (first_behind_iff (List.mem_of_getElem? hr) hs).mpr hnext⟩
  · rintro ⟨hdot, r, r', hr, hr', hs, hnext⟩
    refine ⟨r, hr, r'.head, ⟨_, hs, rfl⟩, item'.rule, Grammar.mem_rulesFor_iff.mpr ⟨r', hr', rfl⟩,
      item'.ahead, (first_behind_iff (List.mem_of_getElem? hr) hs).mp hnext, ?_⟩
    cases item'
    cases hdot
    rfl

section

variable {t : Table Token.Kind Phrase} {state : t.State} {item : Table.Item Token.Kind}

/-- A state has what its items call for. -/
theorem has_of_predicted (h : t.Has grammar state item) {item' : Table.Item Token.Kind}
    (hmem : item' ∈ predicted item) : t.Has grammar state item' := by
  rcases mem_predicted_iff.mp hmem with ⟨hdot, r, r', hr, hr', hs, hfirst⟩
  cases item'
  cases hdot
  exact .predict h hr hs hr' hfirst

/-- Behind an item comes what may come behind its head. -/
theorem ahead_mem_follow (h : t.Has grammar state item) {r : Rule Token.Kind Phrase}
    (hr : grammar.rules[item.rule]? = some r) : item.ahead ∈ follow r.head := by
  have hbehind : ∀ r ∈ grammar.rules, ∀ dot < r.body.length, ∀ r' ∈ grammar.rules,
      r.body[dot]? = some (.nonterminal r'.head) → ∀ ahead ∈ follow r.head,
      ∀ next ∈ firsts (r.body.drop (dot + 1)) ahead, next ∈ follow r'.head := by
    decide
  induction h generalizing r with
  | start here head =>
      rw [here, Option.some.injEq] at hr
      rw [← hr, head]
      exact List.mem_singleton_self none
  | predict above here symbol there behind ih =>
      rw [there, Option.some.injEq] at hr
      subst hr
      have hmem := List.mem_of_getElem? here
      have hdot := (List.getElem?_eq_some_iff.mp symbol).1
      exact hbehind _ hmem _ hdot _ (List.mem_of_getElem? there) symbol _ (ih here) _
        ((first_behind_iff hmem symbol).mp behind)
  | advance before symbol moved ih => exact ih hr

/-- A state has the rules and dots of a spot if it has no others for what has
    been read. -/
theorem core_mem_cores {s : Spot} (hstart : state = t.start → (0, 0) ∈ s.cores)
    (hmoved : ∀ {rule dot ahead}, t.Has grammar state ⟨rule, dot + 1, ahead⟩ →
      (rule, dot + 1) ∈ s.cores)
    (h : t.Has grammar state item) : (item.rule, item.dot) ∈ s.cores := by
  -- The rules called for are there.
  have hcalled : ∀ core ∈ s.cores, ∀ r ∈ grammar.rules[core.1]?.toList,
      ∀ phrase ∈ (r.body[core.2]?.bind Symbol.nonterminal?).toList,
      ∀ rule ∈ grammar.rulesFor phrase, (rule, 0) ∈ s.cores := by
    cases s <;> decide
  have hwhole : grammar.rulesFor .whole = [0] := by decide
  induction h with
  | @start rule r here head =>
      have hrule : rule ∈ grammar.rulesFor .whole :=
        Grammar.mem_rulesFor_iff.mpr ⟨r, here, head⟩
      rw [hwhole, List.mem_singleton] at hrule
      rw [hrule]
      exact hstart rfl
  | predict above here symbol there behind ih =>
      refine hcalled _ (ih hstart hmoved) _ (Option.mem_toList.mpr here) _
        (Option.mem_toList.mpr ?_) _ (Grammar.mem_rulesFor_iff.mpr ⟨_, there, rfl⟩)
      rw [symbol]
      rfl
  | advance before symbol moved ih => exact hmoved (.advance before symbol moved)

/-- Items are grounded if each of them is known, or part of it has been read, or
    it is called for by one before. -/
def grounded (known : List (Table.Item Token.Kind)) : List (Table.Item Token.Kind) → Bool
  | [] => true
  | item :: rest =>
    (item.dot ≠ 0 || item ∈ known || known.any fun above => item ∈ predicted above) &&
      grounded (item :: known) rest

/-- A state has grounded items if it has those of which part has been read. -/
theorem has_of_grounded {known items : List (Table.Item Token.Kind)}
    (h : grounded known items = true) (hknown : ∀ item ∈ known, t.Has grammar state item)
    (hmoved : ∀ item ∈ items, item.dot ≠ 0 → t.Has grammar state item) :
    ∀ item ∈ items, t.Has grammar state item := by
  induction items generalizing known with
  | nil => exact fun _ hitem => absurd hitem List.not_mem_nil
  | cons first rest ih =>
      simp only [grounded, Bool.and_eq_true, Bool.or_eq_true, decide_eq_true_eq, List.any_eq_true]
        at h
      have hfirst : t.Has grammar state first := by
        rcases h.1 with (hdot | hthere) | ⟨above, habove, hcalled⟩
        · exact hmoved first List.mem_cons_self hdot
        · exact hknown first hthere
        · exact has_of_predicted (hknown above habove) hcalled
      have hall : ∀ item ∈ first :: known, t.Has grammar state item :=
        List.forall_mem_cons.mpr ⟨hfirst, hknown⟩
      have hrest := ih h.2 hall fun item hitem => hmoved item (List.mem_cons_of_mem _ hitem)
      exact List.forall_mem_cons.mpr ⟨hfirst, hrest⟩

/-- A state stands for a spot if it has the rules and dots of the spot. It has
    all items of the spot as well, but for the spot behind a name, where it may
    be known what the name is. -/
structure Stands (t : Table Token.Kind Phrase) (state : t.State) (s : Spot) : Prop where
  core {item : Table.Item Token.Kind} : t.Has grammar state item → (item.rule, item.dot) ∈ s.cores
  has {item : Table.Item Token.Kind} : s ≠ .name → item ∈ s.items → t.Has grammar state item

/-- A symbol leads from a spot to another if there is such a move. -/
theorem goto?_eq_some_iff {s s' : Spot} {symbol : Symbol Token.Kind Phrase} :
    s.goto? symbol = some s' ↔ (symbol, s') ∈ s.moves := by
  have hmove : ∀ move ∈ s.moves, s.goto? move.1 = some move.2 := by
    cases s <;> decide
  constructor
  · intro h
    rcases Option.map_eq_some_iff.mp h with ⟨move, hfind, rfl⟩
    have hsymbol := List.find?_some hfind
    rw [decide_eq_true_eq] at hsymbol
    rw [← hsymbol]
    exact List.mem_of_find?_eq_some hfind
  · exact hmove (symbol, s')

/-- Every move is called for by an item. Behind a name there is none. -/
theorem exists_item_of_move {s s' : Spot} {symbol : Symbol Token.Kind Phrase}
    (h : s.goto? symbol = some s') :
    s ≠ .name ∧ ∃ item ∈ s.items, grammar.symbolAt? item.rule item.dot = some symbol := by
  have hitem : ∀ move ∈ s.moves, s ≠ .name ∧
      ∃ item ∈ s.items, grammar.symbolAt? item.rule item.dot = some move.1 := by
    cases s <;> decide
  exact hitem _ (goto?_eq_some_iff.mp h)

/-- There is a move for every symbol behind a dot. -/
theorem goto?_isSome_of_core {s : Spot} {rule dot : Nat} {symbol : Symbol Token.Kind Phrase}
    (h : (rule, dot) ∈ s.cores) (hsymbol : grammar.symbolAt? rule dot = some symbol) :
    (s.goto? symbol).isSome = true := by
  have hmoves : ∀ core ∈ s.cores, ∀ symbol ∈ (grammar.symbolAt? core.1 core.2).toList,
      (s.goto? symbol).isSome = true := by
    cases s <;> decide
  exact hmoves _ h _ (Option.mem_toList.mpr hsymbol)

/-- What is reduced is an item that has ended. -/
theorem exists_item_of_reduce {s : Spot} {ahead : Option Token.Kind} {rule : Nat}
    (h : s.reduce? ahead = some rule) :
    ∃ r, grammar.rules[rule]? = some r ∧ ⟨rule, r.body.length, ahead⟩ ∈ s.items := by
  have hends : ∀ item ∈ s.items, grammar.symbolAt? item.rule item.dot = none →
      ∃ r ∈ grammar.rules[item.rule]?.toList, item.dot = r.body.length := by
    cases s <;> decide
  rcases Option.map_eq_some_iff.mp h with ⟨item, hfind, rfl⟩
  have hitem := List.mem_of_find?_eq_some hfind
  have hfound := List.find?_some hfind
  rw [decide_eq_true_eq] at hfound
  rcases hfound with ⟨rfl, hend⟩
  rcases hends item hitem hend with ⟨r, hr, hdot⟩
  refine ⟨r, Option.mem_toList.mp hr, ?_⟩
  rwa [← hdot]

/-- The start stands for the beginning. -/
theorem stands_start (ht : t.IsLr grammar) : Stands t t.start .beginning where
  core h := by
    refine core_mem_cores (fun _ => List.mem_cons_self) (fun hmoved => ?_) h
    rcases hmoved.exists_goto with ⟨before, s, _, _, hgoto⟩
    exact absurd hgoto ht.fresh
  has _ hitem := by
    have hgrounded : grounded [⟨0, 0, none⟩] Spot.beginning.items = true := by decide
    have hdots : ∀ item ∈ Spot.beginning.items, item.dot = 0 := by decide
    have hstart : t.Has grammar t.start ⟨0, 0, none⟩ := .start (g := grammar) rfl rfl
    exact has_of_grounded hgrounded (List.forall_mem_singleton.mpr hstart)
      (fun item hitem hdot => absurd (hdots item hitem) hdot) _ hitem

/-- A step leads to a state that stands for what the step leads to. -/
theorem Stands.goto (ht : t.IsLr grammar) {s s' : Spot} (h : Stands t state s) {state' : t.State}
    {symbol : Symbol Token.Kind Phrase} (hgoto : t.goto? state symbol = some state')
    (hmove : s.goto? symbol = some s') : Stands t state' s' where
  core hitem := by
    have hnext : ∀ core ∈ s.cores, ∀ move ∈ s.moves,
        grammar.symbolAt? core.1 core.2 = some move.1 → (core.1, core.2 + 1) ∈ move.2.cores := by
      cases s <;> decide
    refine core_mem_cores (fun hstart => ?_) (fun {rule dot ahead} hmoved => ?_) hitem
    · rw [hstart] at hgoto
      exact absurd hgoto ht.fresh
    · -- The dot has been moved on from here, too.
      rcases ht.merged hgoto hmoved with ⟨hsymbol, ahead', hbefore⟩
      exact hnext _ (h.core hbefore) _ (goto?_eq_some_iff.mp hmove) hsymbol
  has hname hitem := by
    have hmoves := goto?_eq_some_iff.mp hmove
    have hbefore : ∀ move ∈ s.moves, s ≠ .name ∧ (move.2 ≠ .name → grounded [] move.2.items = true ∧
        ∀ item ∈ move.2.items, item.dot ≠ 0 → ⟨item.rule, item.dot - 1, item.ahead⟩ ∈ s.items ∧
          grammar.symbolAt? item.rule (item.dot - 1) = some move.1) := by
      cases s <;> decide
    rcases hbefore _ hmoves with ⟨hs, hitems⟩
    rcases hitems hname with ⟨hgrounded, hdots⟩
    refine has_of_grounded hgrounded (fun item hitem => absurd hitem List.not_mem_nil)
      (fun item hitem hdot => ?_) _ hitem
    rcases hdots item hitem hdot with ⟨hthere, hsymbol⟩
    have hmoved := Table.Has.advance (h.has hs hthere) hsymbol hgoto
    rwa [Nat.sub_add_cancel (Nat.pos_of_ne_zero hdot)] at hmoved

/-- A state goes on over a symbol if its spot does. -/
theorem Stands.exists_goto (ht : t.IsLr grammar) {s s' : Spot} (h : Stands t state s)
    {symbol : Symbol Token.Kind Phrase} (hmove : s.goto? symbol = some s') :
    ∃ state', t.goto? state symbol = some state' ∧ Stands t state' s' := by
  rcases exists_item_of_move hmove with ⟨hs, item, hthere, hsymbol⟩
  rcases Option.isSome_iff_exists.mp (ht.goto_iff.mpr ⟨item, h.has hs hthere, hsymbol⟩) with
    ⟨state', hgoto⟩
  exact ⟨state', hgoto, h.goto ht hgoto hmove⟩

/-- A state does not go on over a symbol if its spot does not. -/
theorem Stands.goto_eq_none (ht : t.IsLr grammar) {s : Spot} (h : Stands t state s)
    {symbol : Symbol Token.Kind Phrase} (hmove : s.goto? symbol = none) :
    t.goto? state symbol = none := by
  rw [← Option.not_isSome_iff_eq_none, ht.goto_iff]
  rintro ⟨item, hitem, hsymbol⟩
  have hsome := goto?_isSome_of_core (h.core hitem) hsymbol
  rw [hmove] at hsome
  cases hsome

/-- What a state reduces is reduced in its spot. -/
theorem Stands.ends (ht : t.IsLr grammar) {s : Spot} (h : Stands t state s)
    {ahead : Option Token.Kind} {rule : Nat} (hreduce : t.reduce? state ahead = some rule) :
    s.reduce? ahead = some rule := by
  have hends : ∀ core ∈ s.cores, ∀ r ∈ grammar.rules[core.1]?.toList, core.2 = r.body.length →
      ∀ ahead ∈ follow r.head, s.reduce? ahead = some core.1 := by
    cases s <;> decide
  rcases ht.reduce_iff.mp hreduce with ⟨r, hr, hitem⟩
  exact hends _ (h.core hitem) _ (Option.mem_toList.mpr hr) rfl _ (ahead_mem_follow hitem hr)

/-- A state reduces what its spot does. -/
theorem Stands.reduce_eq (ht : t.IsLr grammar) {s : Spot} (h : Stands t state s) (hs : s ≠ .name)
    (ahead : Option Token.Kind) : t.reduce? state ahead = s.reduce? ahead := by
  refine Option.ext fun rule => ⟨h.ends ht, fun hreduce => ?_⟩
  rcases exists_item_of_reduce hreduce with ⟨r, hr, hitem⟩
  exact ht.reduce_iff.mpr ⟨r, hr, h.has hs hitem⟩

/-- Behind a name it is reduced before all that may come behind it there. -/
theorem Stands.reduce_name (ht : t.IsLr grammar) {s : Spot} (h : Stands t state s)
    {named : t.State} (hgoto : t.goto? state (.terminal .name) = some named)
    {ahead : Option Token.Kind} (hahead : ahead ∈ s.aheads .name) :
    t.reduce? named ahead = some 15 := by
  have hname : (s.goto? (.terminal .name)).isSome = true →
      s ≠ .name ∧ ∀ ahead ∈ s.aheads .name, ⟨15, 0, ahead⟩ ∈ s.items := by
    cases s <;> decide
  have hmove : (s.goto? (.terminal .name)).isSome = true := by
    rw [Option.isSome_iff_ne_none]
    intro hnone
    rw [h.goto_eq_none ht hnone] at hgoto
    cases hgoto
  rcases hname hmove with ⟨hs, hitems⟩
  have hthere := h.has hs (hitems ahead hahead)
  exact ht.reduce_iff.mpr ⟨_, rfl, .advance hthere rfl hgoto⟩

end

end Bnf

end EarleyForest
