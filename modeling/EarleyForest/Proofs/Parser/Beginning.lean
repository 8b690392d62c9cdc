import EarleyForest.Proofs.Chart.Agreement
import EarleyForest.Proofs.Parser.Outcome

/-!
# Parsing the Beginning of an Input

A parse goes from left to right and never looks further than one terminal. So
the stage at which it closes the column behind the beginning of an input holds
all that the beginning decides: the columns up to there, but for the items of
the last one that expect a terminal, and the nodes whose spans end there or
before. They come first in the forest, and their families are final.

Whether the beginning is accepted as an input of its own can therefore be read
off the column behind it.

## Main definitions

* `Stage.behind`: The stage at which the column behind the beginning of an
  input is closed.
* `Stage.Decides`: What a stage holds of a parse.

## Theorems

* `decides_behind`: The beginning of an input decides its part of the parse.
* `Decides.nodes`: What two parses have in common.
* `accepted_iff_isFinal`: Acceptance, read off the last column.
* `parse_of_same_beginning`: Inputs with the same beginning have the same part
  of the parse there.
-/

namespace EarleyForest

variable {T N : Type}

namespace Stage

variable [DecidableEq T] [DecidableEq N] {g : Grammar T N} {input : List T} {s : Stage T N}
  {done : List Item}

/-- Going through the beginning of an input keeps the invariant. No item of the
    column behind it has been processed yet. -/
theorem Invariant.runUpTo (first rest : List T) (h : s.Invariant g input [])
    (hrest : input.drop s.front.position = first ++ rest) :
    (s.runUpTo g rest.head? first).Invariant g input [] ∧
      (s.runUpTo g rest.head? first).front.position = s.front.position + first.length := by
  induction first generalizing s with
  | nil => exact ⟨h, rfl⟩
  | cons t first ih =>
      rw [List.cons_append] at hrest
      rcases h.read hrest with ⟨hshift, hnext, hrest'⟩
      rw [List.head?_append] at hshift hnext
      rcases ih hshift (by rw [hnext, hrest']) with ⟨hdone, hlength⟩
      refine ⟨hdone, ?_⟩
      rw [Stage.runUpTo, hlength, hnext, List.length_cons]
      omega

/-- The stage at which the column behind the beginning of an input is closed,
    given the terminal that comes next. -/
def behind (g : Grammar T N) (first : List T) (next : Option T) : Stage T N :=
  ((start g (first.head?.or next)).runUpTo g next first).close g

/-- What comes behind the beginning of an input makes no difference there but
    for the items that expect a terminal. -/
theorem agrees_behind (g : Grammar T N) (first : List T) (next next' : Option T) :
    (behind g first next).Agrees g (behind g first next') :=
  (agrees_runUpTo g next next' first).close

/-- What a stage holds of a parse: the columns up to its position, and the
    nodes whose spans end there or before, which come first in the forest. -/
structure Decides (s : Stage T N) (p : Parse T N) : Prop where
  columns {j : Nat} : j ≤ s.front.position → p.columns[j]? = some (s.front.columnAt j)
  node? {id : NodeId} : id < s.forest.size → p.forest.node? id = s.forest.node? id
  before {id : NodeId} {node : Node T N} : s.forest.node? id = some node →
    node.span.stop ≤ s.front.position
  beyond {id : NodeId} {node : Node T N} : s.forest.size ≤ id → p.forest.node? id = some node →
    s.front.position < node.span.stop

/-- When the column behind the beginning of an input is closed, the columns up
    to it are there for good. -/
theorem columnAt_run (g : Grammar T N) (rest : List T) (hmark : s.front.mark ≤ s.forest.size)
    {j : Nat} (hj : j ≤ (s.close g).front.position) :
    ((s.run g rest).close g).front.columnAt j = (s.close g).front.columnAt j ∧
      j ≤ ((s.run g rest).close g).front.position := by
  cases rest with
  | nil => exact ⟨rfl, hj⟩
  | cons t rest =>
      have hclose := (keeps_close g hmark).1
      have hshift := keeps_of_shift g hclose.marked t rest.head?
      have hkeeps := keeps_run g rest hshift.marked
      rcases keeps_shift g (s.close g) t rest.head? with ⟨hclosed, _⟩
      -- The shift has put the column behind the closed ones.
      have hthere : ((s.close g).shift g t rest.head?).front.closed[j]? =
          some ((s.close g).front.columnAt j) := by
        rw [hclosed]
        rcases Nat.lt_or_eq_of_le hj with hlt | rfl
        · have hlt' : j < (s.close g).front.closed.size := hlt
          rw [Array.getElem?_push_lt hlt', Front.columnAt, Array.getElem?_eq_getElem hlt',
            Option.getD_some]
        · rw [Front.columnAt_position]
          exact Array.getElem?_push_size
      have hlast := hkeeps.columns hthere
      refine ⟨?_, Nat.le_of_lt (Array.getElem?_eq_some_iff.mp hlast).1⟩
      rw [run, Front.columnAt, hlast, Option.getD_some]

/-- Nodes that are made later have spans that end later. -/
theorem beyond_run (rest : List T) (h : s.Invariant g input done)
    (hrest : input.drop s.front.position = rest) {id : NodeId} {node : Node T N}
    (hid : (s.close g).forest.size ≤ id)
    (hnode : ((s.run g rest).close g).forest.node? id = some node) :
    (s.close g).front.position < node.span.stop := by
  cases rest with
  | nil => exact absurd (Forest.has_of_node? hnode).lt_size (Nat.not_lt_of_le hid)
  | cons t rest =>
      rcases h.close with ⟨_, _, _, hposition⟩
      rcases h.read hrest with ⟨hshift, hnext, hrest'⟩
      rw [← hposition] at hnext
      rcases keeps_shift g (s.close g) t rest.head? with ⟨_, hmark, hkeeps⟩
      -- Each new node ends at the position where it is made.
      have hnew : ∀ {f f' : Forest T N} {mark position : Nat},
          (s.close g).front.position + 1 ≤ position →
          (∀ id node, (s.close g).forest.size ≤ id → f.node? id = some node →
            (s.close g).front.position < node.span.stop) →
          f.Keeps mark f' → f'.Marked mark position →
          ∀ id node, (s.close g).forest.size ≤ id → f'.node? id = some node →
            (s.close g).front.position < node.span.stop := by
        intro f f' mark position hposition hf hkeeps hmarked id node hid hnode
        by_cases hmark : mark ≤ id
        · rw [(hmarked.behind (Forest.has_of_node? hnode)).mp hmark]
          exact hposition
        · rw [hkeeps.node? (Nat.lt_of_not_le hmark)] at hnode
          exact hf id node hid hnode
      refine forest_run hnew rest hshift (by rw [hnext, hposition, hrest'])
        (Nat.le_of_eq hnext.symm) ?_ id node hid hnode
      intro id node hid hnode
      have hmarked := hshift.sound.forest.marked
      rw [hmark] at hmarked
      rw [(hmarked.behind (Forest.has_of_node? hnode)).mp hid, hnext]
      exact Nat.lt_succ_self _

/-- The beginning of an input decides its part of the parse. -/
theorem decides_behind (g : Grammar T N) (first rest : List T) :
    (behind g first rest.head?).Decides (g.parse (first ++ rest)) ∧
      (behind g first rest.head?).front.position = first.length := by
  have hstart := invariant_start g (first ++ rest)
  have hdrop : (first ++ rest).drop (start g (first ++ rest).head? : Stage T N).front.position =
      first ++ rest := by rw [(position_start g _).1, List.drop_zero]
  rcases hstart.runUpTo first rest hdrop with ⟨hrun, hposition⟩
  rw [(position_start g _).1, Nat.zero_add] at hposition
  rcases hrun.close with ⟨_, hclose, _, hstays⟩
  have hparse : g.parse (first ++ rest) =
      ((((start g (first ++ rest).head?).runUpTo g rest.head? first).run g rest).close g).toParse
        g := by
    rw [Grammar.parse, run_append]
  rw [List.head?_append] at hrun hposition hclose hstays hparse
  have hmark := hrun.sound.forest.marked.mark_le
  have hrest : (first ++ rest).drop
      ((start g (first.head?.or rest.head?)).runUpTo g rest.head? first).front.position = rest := by
    rw [hposition, List.drop_left]
  have hlast : (behind g first rest.head?).front.position = first.length := hstays.trans hposition
  refine ⟨⟨fun {j} hj => ?_, fun {id} hid => ?_, fun hnode => ?_, fun hid hnode => ?_⟩, hlast⟩
  · rcases columnAt_run g rest hmark hj with ⟨hcolumn, hle⟩
    rw [hparse, columns_toParse g _ hle, hcolumn]
    rfl
  · rw [hparse]
    cases rest with
    | nil => rfl
    | cons t rest =>
        rcases keeps_close g hmark with ⟨hkeeps, _⟩
        have hshift := keeps_of_shift g hkeeps.marked t rest.head?
        rcases keeps_shift g (behind g first (some t)) t rest.head? with ⟨_, hmark', hforest⟩
        have hlater := (keeps_run g rest hshift.marked).forest
        exact (hforest.trans hlater (Nat.le_of_eq hmark'.symm)).node? hid
  · exact hclose.sound.forest.marked.stop_le (Forest.has_of_node? hnode)
  · rw [hparse] at hnode
    exact beyond_run rest hrun hrest hid hnode

omit [DecidableEq T] [DecidableEq N] in
/-- Two parses decided by the same forest up to the same position have the same
    nodes there, and all others have spans that end later. -/
theorem Decides.nodes {s s' : Stage T N} {p q : Parse T N} (h : s.Decides p) (h' : s'.Decides q)
    (hforest : s'.forest = s.forest) (hposition : s'.front.position = s.front.position) :
    (∀ id < s.forest.size, ∃ node, p.forest.node? id = some node ∧
      q.forest.node? id = some node ∧ node.span.stop ≤ s.front.position) ∧
    ∀ id node, s.forest.size ≤ id →
      p.forest.node? id = some node ∨ q.forest.node? id = some node →
      s.front.position < node.span.stop := by
  constructor
  · intro id hid
    have hnode := Array.getElem?_eq_getElem hid
    refine ⟨_, (h.node? hid).trans hnode, ?_, h.before hnode⟩
    rw [← hforest] at hid
    rw [h'.node? hid, hforest]
    exact hnode
  · rintro id node hid (hnode | hnode)
    · exact h.beyond hid hnode
    · rw [← hforest] at hid
      rw [← hposition]
      exact h'.beyond hid hnode

/-- An input is accepted if and only if the last column has a final item. -/
theorem accepted_iff_isFinal (g : Grammar T N) (input : List T) :
    (g.parse input).accepted = true ↔
      ∃ c, (g.parse input).columns[input.length]? = some c ∧
        ∃ item ∈ c.items, item.isFinal g = true := by
  rcases parse_settled g input with ⟨s, done, hs, hparse⟩
  have hcolumn := columns_toParse g s (Nat.le_of_eq hs.position.symm)
  rw [← hs.position] at hcolumn
  rw [hparse, ← hs.position, hcolumn, Front.columnAt_position, Parse.accepted,
    Option.isSome_iff_exists]
  constructor
  · rintro ⟨id, hid⟩
    rcases Option.bind_eq_some_iff.mp hid with ⟨item, hfind, _⟩
    exact ⟨_, rfl, item, List.mem_of_find?_eq_some hfind, List.find?_some hfind⟩
  · rintro ⟨c, hc, item, hitem, hfinal⟩
    rw [Option.some.injEq] at hc
    subst hc
    rcases hs.node_of_isFinal hitem hfinal with ⟨id, hhas, _⟩
    exact ⟨id, hs.root?_eq_some_iff.mpr hhas⟩

end Stage

/-- A final item expects nothing. -/
theorem Item.expectsTerminal_of_isFinal [DecidableEq N] {g : Grammar T N} {item : Item}
    (h : item.isFinal g = true) : item.expectsTerminal g = false := by
  rcases Item.isFinal_eq_true_iff.mp h with ⟨r, hr, _, hdot, _⟩
  refine Item.expectsTerminal_of_complete ?_
  rw [Item.next?, Grammar.symbolAt?_of_rule hr, hdot, List.getElem?_eq_none (Nat.le_refl _)]

/-- The items that expect no terminal decide whether a column has a final
    one. -/
theorem Column.exists_isFinal_of_settled [DecidableEq N] {g : Grammar T N} {c c' : Column}
    (h : c'.settled g = c.settled g) (hfinal : ∃ item ∈ c.items, item.isFinal g = true) :
    ∃ item ∈ c'.items, item.isFinal g = true := by
  rcases hfinal with ⟨item, hitem, hfinal⟩
  have hmem : item ∈ c.settled g := by
    refine List.mem_filter.mpr ⟨hitem, ?_⟩
    rw [Item.expectsTerminal_of_isFinal hfinal]
    rfl
  rw [← h] at hmem
  exact ⟨item, (List.mem_filter.mp hmem).1, hfinal⟩

variable [DecidableEq T] [DecidableEq N]

namespace Parser

/-- Two inputs with the same beginning have the same columns before its end,
    the same column there but for items that expect a terminal, and the same
    nodes as far as their spans end there or before; these come first in both
    forests. The beginning is accepted by itself if and only if the column
    behind it has a final item. -/
theorem parse_of_same_beginning (p : Parser T N) (x y : List T) (k : Nat) (hx : k ≤ x.length)
    (hsame : x.take k = y.take k) :
    (∀ j < k, ∃ c, (p.parse x).columns[j]? = some c ∧ (p.parse y).columns[j]? = some c) ∧
    (∃ c d, (p.parse x).columns[k]? = some c ∧ (p.parse y).columns[k]? = some d ∧
      c.settled p.grammar = d.settled p.grammar) ∧
    (∃ size,
      (∀ id < size, ∃ node, (p.parse x).forest.node? id = some node ∧
        (p.parse y).forest.node? id = some node ∧ node.span.stop ≤ k) ∧
      ∀ id node, size ≤ id →
        (p.parse x).forest.node? id = some node ∨ (p.parse y).forest.node? id = some node →
        k < node.span.stop) ∧
    ((p.parse (x.take k)).accepted = true ↔
      ∃ c, (p.parse x).columns[k]? = some c ∧ ∃ item ∈ c.items, item.isFinal p.grammar = true) := by
  have hlength : (x.take k).length = k := List.length_take_of_le hx
  -- Three parses that begin in the same way: with the one rest of the input,
  -- with the other, and with none.
  rcases Stage.decides_behind p.grammar (x.take k) (x.drop k) with ⟨hdecides, hposition⟩
  rcases Stage.decides_behind p.grammar (x.take k) (y.drop k) with ⟨hdecides', hposition'⟩
  rcases Stage.decides_behind p.grammar (x.take k) [] with ⟨halone, hposition''⟩
  rw [List.append_nil] at halone
  rw [List.take_append_drop] at hdecides
  rw [hsame, List.take_append_drop, ← hsame] at hdecides'
  rw [hlength] at hposition hposition' hposition''
  have hother := Stage.agrees_behind p.grammar (x.take k) (x.drop k).head? (y.drop k).head?
  have hnone := Stage.agrees_behind p.grammar (x.take k) (x.drop k).head? ([] : List T).head?
  refine ⟨fun j hj => ?_, ?_, ?_, ?_⟩
  · refine ⟨_, hdecides.columns (by omega), ?_⟩
    rw [parse, hdecides'.columns (by omega)]
    refine congrArg some (Front.columnAt_congr _ _ hother.front.closed ?_)
    exact Nat.lt_of_lt_of_eq hj hposition.symm
  · refine ⟨_, _, hdecides.columns (Nat.le_of_eq hposition.symm),
      hdecides'.columns (Nat.le_of_eq hposition'.symm), ?_⟩
    exact (hother.front.settled_columnAt k).symm
  · have hnodes := hdecides.nodes hdecides' hother.forest (hposition'.trans hposition.symm)
    rw [hposition] at hnodes
    exact ⟨_, hnodes⟩
  · rw [parse, Stage.accepted_iff_isFinal, hlength, halone.columns (Nat.le_of_eq hposition''.symm),
      parse, hdecides.columns (Nat.le_of_eq hposition.symm)]
    have hsettled := hnone.front.settled_columnAt k
    constructor
    · rintro ⟨c, hc, hfinal⟩
      cases hc
      exact ⟨_, rfl, Column.exists_isFinal_of_settled hsettled.symm hfinal⟩
    · rintro ⟨c, hc, hfinal⟩
      cases hc
      exact ⟨_, rfl, Column.exists_isFinal_of_settled hsettled hfinal⟩

/-- Words of one letter, the longer ones by a left-recursive rule. -/
def repeated : Parser Char Nat where
  grammar := ⟨0, [⟨0, [.nonterminal 0, .terminal 'a']⟩, ⟨0, [.terminal 'a']⟩]⟩
  spelling := ⟨String.singleton, Nat.repr⟩
  valid := by decide

/-- The column behind the first letter has a final item, whatever comes next,
    so the letter is accepted by itself. -/
theorem repeated_beginning :
    ['a', 'a'].take 1 = ['a', 'b'].take 1 ∧ (repeated.parse ['a']).accepted = true ∧
      ∃ c d, (repeated.parse ['a', 'a']).columns[1]? = some c ∧
        (repeated.parse ['a', 'b']).columns[1]? = some d ∧ c ≠ d ∧
        c.settled repeated.grammar = d.settled repeated.grammar := by
  rcases parse_of_same_beginning repeated ['a', 'a'] ['a', 'b'] 1 (by decide) rfl with
    ⟨_, ⟨c, d, hc, hd, hsettled⟩, _, haccepted⟩
  have hfinal : ∃ c, (repeated.parse ['a', 'a']).columns[1]? = some c ∧
      ∃ item ∈ c.items, item.isFinal repeated.grammar = true :=
    ⟨⟨[⟨1, 1, 0, some 1⟩, ⟨0, 1, 0, some 1⟩]⟩, by decide, _, List.mem_cons_self, by decide⟩
  have hdiffer : (repeated.parse ['a', 'a']).columns[1]? ≠
      (repeated.parse ['a', 'b']).columns[1]? := by decide
  exact ⟨rfl, haccepted.mpr hfinal, c, d, hc, hd, fun h => hdiffer (by rw [hc, hd, h]), hsettled⟩

end Parser

end EarleyForest
