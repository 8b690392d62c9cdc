import Mathlib.Data.List.Chain
import EarleyForest.Proofs.Enumeration.Marks
import EarleyForest.Proofs.Parser.Finite
import EarleyForest.Proofs.Parser.Rooted

/-!
# The Odometer of an Enumeration

However often an enumeration goes on, each of its attempts reads all digits
that there are, and each digit where it was made. There the node has as many
families as the digit counts, and when the attempt ends, no digit is left
unread, whether something has been built or the walk has run into a cycle.

Between two attempts the odometer advances. It turns one digit and drops those
behind it, and the next walk may make new ones. So the digits of attempts that
follow each other first differ at a digit that both have, and it is larger in
the later attempt. The digits are in the order of a dictionary, and those of no
attempt are the beginning of those of another.

## Main definitions

* `Odometer.Before`: Digits that differ first at one which is larger in the
  second.
* `Enumeration.tried`: All attempts, when an enumeration goes on a number of
  times.
* `Enumeration.Turns`: A setting that the odometer makes of a walk's digits.
* `Enumeration.record`: What is noted of an attempt's walk.
* `Enumeration.Aligned`: The digits are read where they were made.

## Theorems

* `Before.trans`, `Before.spec`, `before_of_advance`: The order of the digits.
* `tried_eq_map`: The settings of all attempts.
* `fits_of_turns`, `aligned_record`: Settings that follow each other fit.
* `digits_aligned`: The digits of an enumeration.
-/

namespace EarleyForest

variable {T N Tok Out : Type}

namespace Odometer

/-- Two sequences of digits differ, and where they do so first, both have a
    digit, and it is larger in the second. -/
inductive Before : List Digit → List Digit → Prop where
  | here {first later : Digit} (turned : first.taken < later.taken) (rest rest' : List Digit) :
    Before (first :: rest) (later :: rest')
  | there (digit : Digit) {first later : List Digit} (rest : Before first later) :
    Before (digit :: first) (digit :: later)

theorem Before.trans {first second third : List Digit} (h : Before first second)
    (h' : Before second third) : Before first third := by
  induction h generalizing third with
  | here turned rest rest' =>
      cases h' with
      | here turned' => exact .here (Nat.lt_trans turned turned') _ _
      | there => exact .here turned _ _
  | there digit _ ih =>
      cases h' with
      | here turned' => exact .here turned' _ _
      | there _ hrest => exact .there digit (ih hrest)

instance : Trans Before Before Before := ⟨Before.trans⟩

/-- The first sequence comes first in a dictionary, and neither is the beginning
    of the other. -/
theorem Before.spec {first later : List Digit} (h : Before first later) :
    first.map Digit.taken < later.map Digit.taken ∧
      ¬ first.map Digit.taken <+: later.map Digit.taken ∧
      ¬ later.map Digit.taken <+: first.map Digit.taken := by
  induction h with
  | here turned rest rest' =>
      simp only [List.map_cons, List.cons_lt_cons_iff, List.cons_prefix_cons]
      exact ⟨Or.inl turned, fun h => Nat.ne_of_lt turned h.1, fun h => Nat.ne_of_gt turned h.1⟩
  | there digit _ ih =>
      simp only [List.map_cons, List.cons_lt_cons_iff, List.cons_prefix_cons, true_and]
      exact ⟨Or.inr ih.1, ih.2⟩

/-- What begins with the next setting comes behind. -/
theorem before_of_advance {digits next later : List Digit} (h : advance digits = some next)
    (hlater : next <+: later) : Before digits later := by
  induction digits generalizing next later with
  | nil => cases h
  | cons digit rest ih =>
      rw [advance] at h
      split at h
      · -- A later digit turns; this one stays.
        rename_i more hmore
        cases h
        rcases hlater with ⟨behind, rfl⟩
        exact .there digit (ih hmore (List.prefix_append more behind))
      · split at h
        · cases h
          rcases hlater with ⟨behind, rfl⟩
          exact .here (Nat.lt_succ_self _) _ _
        · cases h

end Odometer

namespace Enumeration

/-- The attempts made when an enumeration goes on a number of times. -/
def tried (e : Enumeration T N Tok Out) (count : Nat) : List (Attempt T N Tok Out) :=
  (List.range count).flatMap fun k => (e.after k).next.1.attempts

section

variable (f : Forest T N) (tokens : List Tok) (builder : Builder T N Tok Out) (root : NodeId)

/-- The odometer makes the second setting of the digits of the walk at the
    first one. -/
def Turns (setting next : List Digit) : Prop :=
  Odometer.advance (attempt f tokens builder root setting).digits = some next

/-- What is noted of the walk at a setting. -/
def record (setting : List Mark) : Record T N Tok :=
  Route.recordAfter ((Route.walk f tokens builder [] root).run ⟨[], setting, []⟩)

end

/-- The digits of a setting are read where they were made. Before the walk each
    of them can be turned to. The walk reads them all, in their order, and those
    that it makes behind them; it reads each at the node at which it was made,
    which has as many families as the digit counts; and it leaves none. -/
structure Aligned (f : Forest T N) (setting : List Mark) (record : Record T N Tok) : Prop where
  turned : ∀ mark ∈ setting, mark.digit.taken < mark.digit.count
  reads : setting <+: (record.read.map Reading.mark).reverse
  sites : ∀ reading ∈ record.read, reading.node = reading.mark.node ∧
    ∃ node, f.node? reading.node = some node ∧
      node.families.length = reading.mark.digit.count
  complete : record.ahead = []

section

variable {f : Forest T N} {tokens : List Tok} {builder : Builder T N Tok Out} {root : NodeId}

variable (f tokens builder root) in
/-- The attempts of a search are those at settings that follow each other, and
    so does the setting to which the enumeration goes on. -/
theorem search_turns (setting : List Digit) : ∃ more : List (List Digit),
    search f tokens builder root setting =
      (setting :: more).map (attempt f tokens builder root) ∧
    (setting :: more).IsChain (Turns f tokens builder root) ∧
    ∀ next, following? (search f tokens builder root setting) = some next →
      ∀ last ∈ (setting :: more).getLast?, Turns f tokens builder root last next := by
  -- A search that ends leaves it to the enumeration to go on from its last
  -- setting.
  have hend : ∀ setting : List Digit, ∀ next,
      following? [attempt f tokens builder root setting] = some next →
        ∀ last ∈ [setting].getLast?, Turns f tokens builder root last next := by
    intro setting next hnext last hlast
    cases hlast
    simp only [following?, List.getLast?_singleton, Option.bind_some] at hnext
    split at hnext
    · cases hnext
    · exact hnext
  fun_induction search f tokens builder root setting with
  | case1 setting tried hcycle next hnext ih =>
      rcases ih with ⟨more, hsearch, hchain, hlater⟩
      refine ⟨next :: more, ?_, List.isChain_cons_cons.mpr ⟨hnext, hchain⟩, ?_⟩
      · rw [hsearch]
        rfl
      · intro later hfollowing last hlast
        rw [List.getLast?_cons_cons] at hlast
        refine hlater later ?_ last hlast
        rw [← hfollowing, following?, following?, hsearch, List.map_cons,
          List.getLast?_cons_cons]
  | case2 setting tried hcycle hnext =>
      exact ⟨[], rfl, List.isChain_singleton _, hend setting⟩
  | case3 setting tried hcycle =>
      exact ⟨[], rfl, List.isChain_singleton _, hend setting⟩

variable (f tokens builder root) in
/-- All attempts of an enumeration are those at settings that follow each other,
    from the one to try next on. -/
theorem tried_eq_map (upcoming : Option (List Digit)) (count : Nat) :
    ∃ settings : List (List Digit),
      (⟨f, tokens, builder, upcoming.map (root, ·)⟩ : Enumeration T N Tok Out).tried count =
        settings.map (attempt f tokens builder root) ∧
      settings.IsChain (Turns f tokens builder root) ∧
      ∀ first ∈ settings.head?, upcoming = some first := by
  induction count generalizing upcoming with
  | zero => exact ⟨[], rfl, List.isChain_nil, fun _ hfirst => by cases hfirst⟩
  | succ count ih =>
      have hstep : ∀ e : Enumeration T N Tok Out,
          e.tried (count + 1) = e.next.1.attempts ++ e.next.2.tried count := by
        intro e
        rw [tried, List.range_succ_eq_map, List.flatMap_cons, List.flatMap_map]
        rfl
      rw [hstep]
      cases upcoming with
      | none =>
          -- The enumeration is at its end and stays there.
          rcases ih none with ⟨settings, hsettings, hchain, hfirst⟩
          exact ⟨settings, hsettings, hchain, hfirst⟩
      | some setting =>
          rcases search_turns f tokens builder root setting with
            ⟨more, hsearch, hchain, hlater⟩
          rcases ih (following? (search f tokens builder root setting)) with
            ⟨settings, hsettings, hchain', hfirst⟩
          refine ⟨(setting :: more) ++ settings, ?_, ?_, ?_⟩
          · rw [List.map_append, ← hsearch, ← hsettings]
            rfl
          · refine List.isChain_append.mpr ⟨hchain, hchain', fun last hlast first hmem => ?_⟩
            exact hlater first (hfirst first hmem) last hlast
          · intro first hmem
            rw [List.cons_append, List.head?_cons] at hmem
            exact hmem

/-- The walk at a setting that fits leaves the digits of the route, each read at
    its own node. -/
theorem record_spec {setting : List Mark} (h : (Route.walk f tokens builder [] root).Fits setting) :
    (record f tokens builder root setting).read =
        (((Route.walk f tokens builder [] root).marks setting).map
          fun mark => ⟨mark, mark.node⟩).reverse ∧
      (record f tokens builder root setting).ahead = [] ∧
      (record f tokens builder root setting).marks =
        (Route.walk f tokens builder [] root).marks setting := by
  rcases h.run [] [] with ⟨calls', hrun⟩
  rw [List.append_nil] at hrun
  refine ⟨congrArg Record.read hrun, congrArg Record.ahead hrun, ?_⟩
  rw [record, hrun, Record.marks, List.map_reverse, List.reverse_reverse, List.map_map,
    List.append_nil]
  exact List.map_id _

/-- If a walk leaves no digit ahead, the attempt has the digits that it has
    read. -/
theorem digits_attempt {setting : List Mark}
    (h : (record f tokens builder root setting).ahead = []) :
    (attempt f tokens builder root (setting.map Mark.digit)).digits =
      (record f tokens builder root setting).marks.map Mark.digit := by
  have hwalk : Walk.trailAfter
      (Walk.walk f tokens builder [] root ⟨[], setting.map Mark.digit, []⟩) =
        (record f tokens builder root setting).trail := by
    rw [record, ← Route.trailAfter_forget, Route.forget_run_walk]
    rfl
  have hahead : (record f tokens builder root setting).trail.ahead = [] := by
    rw [Record.trail, h, List.map_nil]
  have hmarks : (record f tokens builder root setting).marks.map Mark.digit =
      (record f tokens builder root setting).trail.read.reverse := by
    rw [Record.marks, h, List.append_nil, List.map_reverse, List.map_map]
    rfl
  rw [hmarks]
  unfold attempt
  split
  · rename_i out trail hresult
    rw [hresult] at hwalk
    have htrail : trail = _ := hwalk
    rw [htrail, hahead, List.append_nil]
  · rename_i hresult
    rw [hresult] at hwalk
    exact congrArg (fun trail => trail.read.reverse) hwalk
  · rename_i hresult
    rw [hresult] at hwalk
    exact congrArg (fun trail => trail.read.reverse) hwalk

/-- Settings that follow each other fit if the first one does, with the nodes
    that their digits get when they are made. -/
theorem fits_of_turns {settings : List (List Digit)}
    (hchain : settings.IsChain (Turns f tokens builder root)) {first : List Mark}
    (hfits : (Route.walk f tokens builder [] root).Fits first)
    (hfirst : ∀ setting ∈ settings.head?, setting = first.map Mark.digit) :
    ∃ marked : List (List Mark), settings = marked.map (List.map Mark.digit) ∧
      (∀ setting ∈ marked.head?, setting = first) ∧
      (∀ setting ∈ marked, (Route.walk f tokens builder [] root).Fits setting) ∧
      marked.IsChain fun setting next =>
        Odometer.advanceMarks (record f tokens builder root setting).marks = some next := by
  -- By induction on the settings. What makes the next one fit is that the
  -- digits left by the walk do.
  induction settings generalizing first with
  | nil =>
      exact ⟨[], rfl, fun _ h => (by cases h), fun _ h => absurd h List.not_mem_nil,
        List.isChain_nil⟩
  | cons setting rest ih =>
      have hsetting : setting = first.map Mark.digit := hfirst setting rfl
      rcases List.isChain_cons.mp hchain with ⟨hnext, hrest⟩
      rcases record_spec hfits with ⟨_, hahead, hmarks⟩
      cases rest with
      | nil =>
          refine ⟨[first], by rw [hsetting]; rfl, fun other hother => ?_, ?_,
            List.isChain_singleton _⟩
          · exact (Option.some.inj hother).symm
          · exact List.forall_mem_singleton.mpr hfits
      | cons later more =>
          have hturns := hnext later rfl
          rw [Turns, hsetting, digits_attempt hahead, ← Odometer.map_advanceMarks,
            Option.map_eq_some_iff] at hturns
          rcases hturns with ⟨next, hadvance, hlater⟩
          rw [hmarks] at hadvance
          rcases ih hrest (hfits.marks.advance hadvance)
            (fun other hother => (Option.some.inj hother).symm.trans hlater.symm) with
            ⟨marked, hmarked, hhead, hall, hchained⟩
          refine ⟨first :: marked, by rw [hsetting, hmarked]; rfl, fun other hother => ?_,
            List.forall_mem_cons.mpr ⟨hfits, hall⟩,
            List.isChain_cons.mpr ⟨fun other hother => ?_, hchained⟩⟩
          · exact (Option.some.inj hother).symm
          · rw [hhead other hother, hmarks]
            exact hadvance

/-- The walk at a setting that fits is aligned. -/
theorem aligned_record {setting : List Mark}
    (h : (Route.walk f tokens builder [] root).Fits setting) :
    Aligned f setting (record f tokens builder root setting) := by
  have hsited := Route.sited_walk f tokens builder [] root
  rcases record_spec h with ⟨hread, hahead, hmarks⟩
  refine ⟨fun mark hmark => (h.sited hsited mark hmark).1, ?_, fun reading hreading => ?_, hahead⟩
  · rw [Record.marks, hahead, List.append_nil] at hmarks
    rw [hmarks]
    exact h.isPrefix
  · rw [hread, List.mem_reverse] at hreading
    rcases List.mem_map.mp hreading with ⟨mark, hmark, rfl⟩
    exact ⟨rfl, (h.marks.sited hsited mark hmark).2⟩

/-- The digits of a walk come before those of the walk at the setting that the
    odometer makes of them. -/
theorem before_of_advanceMarks {setting next : List Mark}
    (h : (Route.walk f tokens builder [] root).Fits setting)
    (hnext : (Route.walk f tokens builder [] root).Fits next)
    (hadvance : Odometer.advanceMarks (record f tokens builder root setting).marks = some next) :
    Odometer.Before (attempt f tokens builder root (setting.map Mark.digit)).digits
      (attempt f tokens builder root (next.map Mark.digit)).digits := by
  rw [digits_attempt (record_spec h).2.1, digits_attempt (record_spec hnext).2.1,
    (record_spec hnext).2.2]
  refine Odometer.before_of_advance ?_ (hnext.isPrefix.map Mark.digit)
  rw [← Odometer.map_advanceMarks, hadvance, Option.map_some]

end

end Enumeration

namespace Parser

variable [DecidableEq T] [DecidableEq N]

/-- From any node of a parse that is no part of a rule's body, with enough
    tokens, an enumeration makes its attempts at settings of which the first is
    empty, and each of the others is what the odometer makes of the digits that
    the walk before has left. In each attempt the digits are read where they
    were made, and none is left over. The digits of the attempts increase. -/
theorem digits_aligned (p : Parser T N) (input : List T) (tokens : List Tok)
    (builder : Builder T N Tok Out) {id : NodeId} {node : Node T N}
    (hnode : (p.parse input).forest.node? id = some node)
    (hlabel : node.label.isIntermediate = false) (htokens : node.span.stop ≤ tokens.length) :
    ∃ e, Enumeration.ofRoot (p.parse input).forest (some id) tokens builder = .ok e ∧
      ∀ count, ∃ settings : List (List Mark),
        e.tried count = settings.map (fun setting =>
          Enumeration.attempt (p.parse input).forest tokens builder id
            (setting.map Mark.digit)) ∧
        (∀ first ∈ settings.head?, first = []) ∧
        settings.IsChain (fun setting next => Odometer.advanceMarks
          (Enumeration.record (p.parse input).forest tokens builder id setting).marks =
            some next) ∧
        (∀ setting ∈ settings,
          Walk.walk (p.parse input).forest tokens builder [] id ⟨[], setting.map Mark.digit, []⟩ =
            Route.forget ((Route.walk (p.parse input).forest tokens builder [] id).run
              ⟨[], setting, []⟩) ∧
          Enumeration.Aligned (p.parse input).forest setting
            (Enumeration.record (p.parse input).forest tokens builder id setting) ∧
          (Enumeration.attempt (p.parse input).forest tokens builder id
              (setting.map Mark.digit)).digits =
            (Enumeration.record (p.parse input).forest tokens builder id
              setting).marks.map Mark.digit) ∧
        (e.tried count).Pairwise fun tried later =>
          tried.digits.map Digit.taken < later.digits.map Digit.taken ∧
            ¬ tried.digits.map Digit.taken <+: later.digits.map Digit.taken ∧
            ¬ later.digits.map Digit.taken <+: tried.digits.map Digit.taken := by
  have hsound : (p.parse input).forest.Sound p.grammar input :=
    (p.grammar.parse_exact input).sound
  rcases Enumeration.yields_nested hsound (Forest.has_of_node? hnode) hlabel htokens builder with
    ⟨e, he, _⟩
  refine ⟨e, he, fun count => ?_⟩
  rw [(Enumeration.ofRoot_eq_ok_iff.mp he).1]
  rcases Enumeration.tried_eq_map (p.parse input).forest tokens builder id (some []) count with
    ⟨plain, htried, hchain, hfirst⟩
  rcases Enumeration.fits_of_turns hchain (Route.fits_nil _) (fun setting hsetting =>
    (Option.some.inj (hfirst setting hsetting)).symm) with
    ⟨settings, rfl, hhead, hfits, hchained⟩
  rw [Option.map_some, List.map_map] at htried
  refine ⟨settings, htried, hhead, hchained, fun setting hsetting => ⟨?_, ?_, ?_⟩, ?_⟩
  · exact (Route.forget_run_walk _ tokens builder [] id ⟨[], setting, []⟩).symm
  · exact Enumeration.aligned_record (hfits setting hsetting)
  · exact Enumeration.digits_attempt (Enumeration.record_spec (hfits setting hsetting)).2.1
  · -- Each attempt comes before the next one, so all of them are in order.
    have hbefore := hchained.imp_of_mem_imp fun setting next hsetting hnext =>
      Enumeration.before_of_advanceMarks (hfits setting hsetting) (hfits next hnext)
    have hdigits : (((⟨(p.parse input).forest, tokens, builder, some (id, [])⟩ :
        Enumeration T N Tok Out).tried count).map Attempt.digits).IsChain Odometer.Before := by
      rw [htried, List.map_map]
      exact (List.isChain_map _).mpr hbefore
    exact (List.pairwise_map.mp hdigits.pairwise).imp fun h => h.spec

/-- The digits increase although one way of the root leads back to the root. -/
theorem looped_digits_aligned :
    (looped.parse ['a']).forest.node? 1 =
      some ⟨.nonterminal 0, ⟨0, 1⟩, [.unary 0, .unary 1]⟩ ∧
    ∃ e : Enumeration Char Nat Char (Tree Nat Char),
      Enumeration.ofRoot (looped.parse ['a']).forest (some 1) ['a'] Builder.tree = .ok e ∧
      ∀ count, (e.tried count).Pairwise fun tried later =>
        tried.digits.map Digit.taken < later.digits.map Digit.taken := by
  rcases digits_aligned looped ['a'] ['a'] Builder.tree looped_node_one rfl (Nat.le_refl 1) with
    ⟨e, he, haligned⟩
  refine ⟨looped_node_one, e, he, fun count => ?_⟩
  rcases haligned count with ⟨_, _, _, _, _, hincreasing⟩
  exact hincreasing.imp fun h => h.1

end Parser

end EarleyForest
