import EarleyForest.Proofs.Bnf.Spots

/-!
# The Merged Table Is Made from Items

The items of the merged table are the ones that the rules of the start symbol
lead to. What a state has of them beyond those it was reached with is called
for by these. And a state is reached only from states before it in the list, so
that their items can be told one state after the other.

A parser with this table never reduces for ever. Every reduction makes the stack
lighter, if a state on top counts for the reductions that it can bring. So the
parser does what is asked of a generated parser, and its reports are worded as
they should be.

## Main definitions

* `Spot.before`: States that lead to a state.
* `Spot.weight`: How many reductions a state can bring.
* `Spot.load`: What a stack weighs.

## Theorems

* `merged_has_iff`: The items of a state.
* `merged_isLr`: The merged table is made from items.
* `load_lt_of_reduced?`: A reduction makes a stack lighter.
* `stop?_of_stops`: The parser stops where the table has it stop.
* `lawful_merged`: The parser of the merged table, and its wording, are lawful.
-/

namespace EarleyForest

namespace Bnf

open Spot

/-- States that lead to a state, and from which all its items come that have
    symbols before the dot. -/
def Spot.before : Spot → List Spot
  | beginning => []
  | finished | someProductions | firstProduction | head => [beginning]
  | nextProduction => [someProductions]
  | defined => [head]
  | alternatives | firstBody | lone | atoms | firstAtom | nameAtom | quotedAtom | quoted =>
    [defined]
  | ended | barred => [alternatives]
  | nextBody => [barred]
  | nextAtom => [atoms]
  | name => [beginning, defined]

/-- A state has its items if the states before it have theirs. -/
theorem has_of_before {s : Spot}
    (h : ∀ before ∈ s.before, ∀ item ∈ before.items, merged.Has grammar before item) :
    ∀ item ∈ s.items, merged.Has grammar s item := by
  -- The start has an item that nothing calls for.
  have hground : grounded (if s = beginning then [⟨0, 0, none⟩] else []) s.items = true := by
    cases s <;> decide
  have hdots : ∀ item ∈ s.items, item.dot ≠ 0 → ∃ before ∈ s.before, ∃ move ∈ before.moves,
      move.2 = s ∧ grammar.symbolAt? item.rule (item.dot - 1) = some move.1 ∧
        ⟨item.rule, item.dot - 1, item.ahead⟩ ∈ before.items := by
    cases s <;> decide
  refine has_of_grounded hground (fun item hitem => ?_) fun item hitem hdot => ?_
  · split at hitem
    · rename_i hs
      rw [List.mem_singleton.mp hitem, hs]
      exact .start (t := merged) (g := grammar) rfl rfl
    · exact absurd hitem List.not_mem_nil
  · rcases hdots item hitem hdot with ⟨before, hbefore, move, hmove, rfl, hsymbol, hthere⟩
    have hmoved := Table.Has.advance (t := merged) (h before hbefore _ hthere) hsymbol
      (goto?_eq_some_iff.mpr hmove)
    rwa [Nat.sub_add_cancel (Nat.pos_of_ne_zero hdot)] at hmoved

/-- The states have their items, one state after the other. -/
theorem has_of_mem_items (s : Spot) : ∀ item ∈ s.items, merged.Has grammar s item := by
  have hearlier : ∀ before ∈ s.before, before.ctorIdx < s.ctorIdx := by
    cases s <;> decide
  exact has_of_before fun before hbefore =>
    have := hearlier before hbefore
    has_of_mem_items before
termination_by s.ctorIdx

/-- What the rules of the start symbol lead to are items of the states. -/
theorem mem_items_of_has {s : merged.State} {item : Table.Item Token.Kind}
    (h : merged.Has grammar s item) : item ∈ Spot.items s := by
  induction h with
  | @start rule r here head =>
      have hstarts : ∀ rule ∈ grammar.rulesFor .whole, ⟨rule, 0, none⟩ ∈ beginning.items := by
        decide
      exact hstarts rule (Grammar.mem_rulesFor_iff.mpr ⟨r, here, head⟩)
  | @predict s rule dot rule' r r' ahead next above here symbol there behind ih =>
      have hclosed : ∀ item ∈ Spot.items s, ∀ item' ∈ predicted item, item' ∈ Spot.items s := by
        cases s <;> decide
      exact hclosed _ ih _ (mem_predicted_iff.mpr ⟨rfl, r, r', here, there, symbol, behind⟩)
  | @advance s s' rule dot ahead symbol before behind moved ih =>
      have hmoves : ∀ item ∈ Spot.items s, ∀ move ∈ Spot.moves s,
          grammar.symbolAt? item.rule item.dot = some move.1 →
            ⟨item.rule, item.dot + 1, item.ahead⟩ ∈ move.2.items := by
        cases s <;> decide
      exact hmoves _ ih _ (goto?_eq_some_iff.mp moved) behind

/-- The items of a state are the ones that the rules of the start symbol lead
    to. -/
theorem merged_has_iff {s : Spot} {item : Table.Item Token.Kind} :
    merged.Has grammar s item ↔ item ∈ s.items :=
  ⟨mem_items_of_has, has_of_mem_items s item⟩

/-- The merged table is made from items. -/
theorem merged_isLr : merged.IsLr grammar where
  goto_iff {s symbol} := by
    constructor
    · intro h
      rcases Option.isSome_iff_exists.mp h with ⟨s', hmove⟩
      rcases exists_item_of_move hmove with ⟨_, item, hitem, hsymbol⟩
      exact ⟨item, merged_has_iff.mpr hitem, hsymbol⟩
    · rintro ⟨item, hitem, hsymbol⟩
      have hcores : ∀ item ∈ Spot.items s, (item.rule, item.dot) ∈ Spot.cores s := by
        cases s <;> decide
      exact goto?_isSome_of_core (hcores item (merged_has_iff.mp hitem)) hsymbol
  reduce_iff {s ahead rule} := by
    constructor
    · intro h
      rcases exists_item_of_reduce h with ⟨r, hr, hitem⟩
      exact ⟨r, hr, merged_has_iff.mpr hitem⟩
    · rintro ⟨r, hr, hitem⟩
      -- No two rules that end in a state have the same behind them.
      have hends : ∀ item ∈ Spot.items s, grammar.symbolAt? item.rule item.dot = none →
          Spot.reduce? s item.ahead = some item.rule := by
        cases s <;> decide
      refine hends _ (merged_has_iff.mp hitem) ?_
      simp only [Grammar.symbolAt?, hr, Option.bind_some, List.getElem?_length]
  fresh {s symbol} h := by
    have hmoves : ∀ move ∈ Spot.moves s, move.2 ≠ beginning := by
      cases s <;> decide
    exact hmoves _ (goto?_eq_some_iff.mp h) rfl
  merged {s s' symbol rule dot ahead} hmove hitem := by
    have hmoves : ∀ move ∈ Spot.moves s, ∀ item ∈ Spot.items move.2, item.dot ≠ 0 →
        grammar.symbolAt? item.rule (item.dot - 1) = some move.1 ∧
          ∃ item' ∈ Spot.items s, item'.rule = item.rule ∧ item'.dot = item.dot - 1 := by
      cases s <;> decide
    rcases hmoves _ (goto?_eq_some_iff.mp hmove) _ (merged_has_iff.mp hitem) (Nat.succ_ne_zero dot)
      with ⟨hsymbol, ⟨rule', dot', ahead'⟩, hitem', rfl, rfl⟩
    exact ⟨hsymbol, ahead', merged_has_iff.mpr hitem'⟩

/-- How many reductions a state on top of a stack can bring before the stack gets
    lower. -/
def Spot.weight : Spot → Nat
  | head | alternatives => 0
  | finished | ended | firstBody | nextBody => 1
  | someProductions | nextProduction | lone | atoms => 2
  | beginning | firstProduction | defined | barred | firstAtom | nextAtom => 3
  | nameAtom | quotedAtom => 4
  | name | quoted => 5

/-- What a state behind a phrase weighs at most. -/
def Phrase.weight : Phrase → Nat
  | .whole | .alternatives => 0
  | .rules | .body => 1
  | .productions | .atoms => 2
  | .production | .atom => 3
  | .name | .quoted => 4

/-- What a stack weighs: its state on top, and one for each state below. -/
def Spot.load : List Spot → Nat
  | [] => 0
  | s :: below => below.length + s.weight

/-- What is reduced in a state is made up for by the weight of the state and of
    those that are taken off. -/
theorem weight_lt_of_reduce? {s : Spot} {ahead : Option Token.Kind} {rule : Nat}
    {r : Rule Token.Kind Phrase} (h : s.reduce? ahead = some rule)
    (hr : grammar.rules[rule]? = some r) : r.head.weight + 1 < s.weight + r.body.length := by
  have hends : ∀ item ∈ s.items, ∀ r ∈ grammar.rules[item.rule]?.toList,
      item.dot = r.body.length → r.head.weight + 1 < s.weight + r.body.length := by
    cases s <;> decide
  rcases exists_item_of_reduce h with ⟨r', hr', hitem⟩
  rw [hr, Option.some.injEq] at hr'
  subst hr'
  exact hends _ hitem r (Option.mem_toList.mpr hr) rfl

/-- A state behind a phrase weighs no more than the phrase. -/
theorem weight_le_of_goto? {s s' : Spot} {phrase : Phrase}
    (h : s.goto? (.nonterminal phrase) = some s') : s'.weight ≤ phrase.weight := by
  have hmoves : ∀ move ∈ s.moves, ∀ phrase ∈ move.1.nonterminal?.toList,
      move.2.weight ≤ phrase.weight := by
    cases s <;> decide
  exact hmoves _ (goto?_eq_some_iff.mp h) _ (List.mem_singleton_self _)

/-- A reduction makes a stack lighter. -/
theorem load_lt_of_reduced? {ahead : Option Token.Kind} {stack next : List Spot}
    (h : merged.reduced? grammar ahead stack = some next) : Spot.load next < Spot.load stack := by
  cases stack with
  | nil => cases h
  | cons s below =>
      rcases Option.bind_eq_some_iff.mp h with ⟨rule, hrule, hbind⟩
      rcases Option.bind_eq_some_iff.mp hbind with ⟨r, hr, hreplaced⟩
      have hreduce := weight_lt_of_reduce? hrule hr
      unfold Table.replaced? at hreplaced
      split at hreplaced
      · cases hreplaced
      · rename_i base rest hdrop
        rcases Option.map_eq_some_iff.mp hreplaced with ⟨s', hmove, rfl⟩
        have hgoto : Spot.weight s' ≤ r.head.weight := weight_le_of_goto? hmove
        have hlength : ((s :: below).drop r.body.length).length = rest.length + 1 :=
          congrArg List.length hdrop
        rw [List.length_drop, List.length_cons] at hlength
        simp only [Spot.load, List.length_cons]
        omega

/-- A stack settles within as many reductions as it weighs. -/
theorem settle?_of_settles {ahead : Option Token.Kind} {stack last : List merged.State}
    (h : merged.Settles grammar ahead stack last) {limit : Nat} (hlimit : Spot.load stack < limit) :
    Spot.settle? ahead limit stack = some last := by
  induction h generalizing limit with
  | done settled =>
      cases limit with
      | zero => exact absurd hlimit (Nat.not_lt_zero _)
      | succ limit => rw [Spot.settle?, settled]
  | reduce reduced later ih =>
      cases limit with
      | zero => exact absurd hlimit (Nat.not_lt_zero _)
      | succ limit =>
          rw [Spot.settle?, reduced]
          exact ih (Nat.lt_of_lt_of_le (load_lt_of_reduced? reduced) (Nat.le_of_lt_succ hlimit))

/-- A stack settles as the table has it. -/
theorem settled?_of_settles {ahead : Option Token.Kind} {stack last : List merged.State}
    (h : merged.Settles grammar ahead stack last) : Spot.settled? ahead stack = some last := by
  refine settle?_of_settles h ?_
  cases stack with
  | nil => exact Nat.zero_lt_succ _
  | cons s below =>
      have hweight : Spot.weight s ≤ 5 := by
        cases s <;> decide
      rw [Spot.load, List.length_cons]
      omega

/-- Tokens are read as the table has it. -/
theorem foldlM_of_reads {kinds : List Token.Kind} {stack last : List merged.State}
    (h : merged.Reads grammar stack kinds last) : kinds.foldlM Spot.shift? stack = some last := by
  induction h with
  | nil stack => rfl
  | cons shifts later ih =>
      cases shifts with
      | shift settles goto =>
          have hgoto : Spot.goto? _ _ = some _ := goto
          rw [List.foldlM_cons, Spot.shift?, settled?_of_settles settles]
          simp only [Option.bind_some, hgoto, Option.map_some]
          exact ih

/-- The parser stops in the state that the table has it stop in. -/
theorem stop?_of_stops {read : List Token.Kind} {found : Option Token.Kind} {s : Spot}
    {below : List Spot} (h : merged.Stops grammar read found (s :: below)) :
    Spot.stop? read found = some s := by
  rcases h with ⟨before, hread, hsettles⟩
  rw [Spot.stop?, foldlM_of_reads hread, Option.bind_some, settled?_of_settles hsettles]
  rfl

/-- What the parser expects where it stops. -/
theorem mem_expected_merged_iff {read : List Token.Kind} {found : Option Token.Kind} {s : Spot}
    {below : List Spot} (h : merged.Stops grammar read found (s :: below)) {entry : String} :
    entry ∈ Generated.merged.expected read found ↔
      ∃ kind, merged.acts s (some kind) = true ∧ kind.text = entry := by
  have hall : ∀ kind, kind ∈ Token.Kind.all := by
    intro kind
    cases kind <;> decide
  simp only [Generated.merged, stop?_of_stops h, Option.toList_some, List.flatMap_singleton,
    List.mem_map, List.mem_filter, hall, true_and]

/-- A list of names is worded one after the other. -/
theorem enumerates_furtherText (first : String) (rest : List String) :
    Enumerates (first :: rest) (first ++ Report.furtherText rest) := by
  induction rest generalizing first with
  | nil =>
      rw [Report.furtherText, String.append_empty]
      exact .one first
  | cons next rest ih =>
      cases rest with
      | nil =>
          rw [Report.furtherText, ← String.append_assoc]
          exact .two first next
      | cons later names =>
          have htext : first ++ Report.furtherText (next :: later :: names) =
              first ++ ", " ++ (next ++ Report.furtherText (later :: names)) := by
            simp only [Report.furtherText, String.append_assoc]
          rw [htext]
          exact .more first (ih next)

/-- A list of names is a line of its own. -/
theorem listing_expectedText (expected : List String) :
    Listing expected (Report.expectedText expected) := by
  cases expected with
  | nil =>
      show Listing [] ""
      exact .nothing
  | cons first rest =>
      show Listing (first :: rest) ("\nExpected one of " ++ first ++ Report.furtherText rest)
      rw [String.append_assoc]
      exact .names (enumerates_furtherText first rest)

/-- The parser of the merged table, and its wording, are lawful. -/
theorem lawful_merged : Generated.merged.Lawful where
  table := merged_isLr
  name_inj {kind kind'} h := by
    cases kind <;> cases kind' <;> simp [Generated.merged, Token.Kind.text] at h ⊢
  mem_expected_iff h := mem_expected_merged_iff h
  invalidToken offset := rfl
  unrecognizedToken text start stop expected :=
    ⟨_, listing_expectedText expected, rfl⟩
  unrecognizedEnd offset expected := ⟨_, listing_expectedText expected, rfl⟩

end Bnf

end EarleyForest
