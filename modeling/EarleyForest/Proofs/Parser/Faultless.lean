import EarleyForest.Proofs.Enumeration.Frames
import EarleyForest.Proofs.Parser.Finite

/-!
# Enumerations that Do Not Fail

An enumeration is refused when it is to start, or it does not fail at all. It
is refused from a node that is a part of a rule's body, and otherwise if there
are fewer tokens than positions up to the end of the node.

If it is not refused, no walk of it finds the forest, the digits or the tokens
not to fit together: each token that it reads for is there, and each family
that a digit names. This goes for every step of the walks at all settings that
are tried, and what is on the stack there is as the steps need it.

## Main definitions

* `Enumeration.settings`: The settings tried for one more derivation.

## Theorems

* `attempts_eq_map`, `attempts_after_eq_map`: The attempts are those at these
  settings.
* `ending_ne_fault`: None of them fails.
* `enumeration_faultless`: What is not refused does not fail.
-/

namespace EarleyForest

variable {T N Tok Out : Type}

namespace Enumeration

/-- The settings tried for one more derivation: the one to try next, and behind
    each attempt but the last the one to which the odometer advances. -/
def settings (e : Enumeration T N Tok Out) : List (List Digit) :=
  match e.upcoming with
  | none => []
  | some (_, setting) =>
    setting :: e.next.1.attempts.dropLast.filterMap fun tried => Odometer.advance tried.digits

section

variable {f : Forest T N} {tokens : List Tok} {builder : Builder T N Tok Out} {id : NodeId}
  {node : Node T N}

/-- A search makes the attempts at its setting and at those to which the
    odometer advances behind all attempts but the last. -/
theorem search_eq_map (setting : List Digit) :
    search f tokens builder id setting =
      (setting :: (search f tokens builder id setting).dropLast.filterMap fun tried =>
        Odometer.advance tried.digits).map (attempt f tokens builder id) := by
  fun_induction search f tokens builder id setting with
  | case1 setting tried hcycle next hnext ih =>
      have hne : search f tokens builder id next ≠ [] := by
        rcases search_eq_append f tokens builder id next with ⟨pruned, last, hsearch, _⟩
        rw [hsearch]
        exact List.concat_ne_nil last pruned
      have hcons : (tried :: (search f tokens builder id next).dropLast).filterMap
          (fun tried => Odometer.advance tried.digits) =
            next :: (search f tokens builder id next).dropLast.filterMap
              fun tried => Odometer.advance tried.digits := by
        rw [List.filterMap_cons]
        simp only [hnext]
      rw [List.dropLast_cons_of_ne_nil hne, hcons, List.map_cons, ← ih]
  | case2 setting tried hcycle hnext => rfl
  | case3 setting tried hcycle => rfl

/-- The attempts made for one more derivation are those at its settings. -/
theorem attempts_eq_map (upcoming : Option (List Digit)) :
    (⟨f, tokens, builder, upcoming.map (id, ·)⟩ : Enumeration T N Tok Out).next.1.attempts =
      (⟨f, tokens, builder, upcoming.map (id, ·)⟩ : Enumeration T N Tok Out).settings.map
        (attempt f tokens builder id) := by
  cases upcoming with
  | none => rfl
  | some setting => exact search_eq_map setting

/-- Going on changes nothing but the setting to try next. -/
theorem exists_after_eq (upcoming : Option (List Digit)) (count : Nat) :
    ∃ later : Option (List Digit),
      (⟨f, tokens, builder, upcoming.map (id, ·)⟩ : Enumeration T N Tok Out).after count =
        ⟨f, tokens, builder, later.map (id, ·)⟩ := by
  induction count generalizing upcoming with
  | zero => exact ⟨upcoming, rfl⟩
  | succ count ih =>
      cases upcoming with
      | none => exact ih none
      | some setting => exact ih (following? (search f tokens builder id setting))

/-- An enumeration at its end makes no attempts, however often it goes on. -/
theorem attempts_after_of_upcoming {e : Enumeration T N Tok Out} (h : e.upcoming = none)
    (count : Nat) : (e.after count).next.1.attempts = [] := by
  induction count with
  | zero =>
      rw [after, next_of_upcoming h]
  | succ count ih =>
      rw [after, next_of_upcoming h]
      exact ih

/-- An attempt halts if the walk at its setting does. -/
theorem ending_of_whole {setting : List Digit} {reason : Halt} {trail : Trail T N Tok}
    (h : Walk.whole f tokens builder id ⟨[], setting, []⟩ = .error reason trail) :
    (attempt f tokens builder id setting).ending = .halted reason := by
  simp only [Walk.whole, Bind.bind, EStateM.bind] at h
  unfold attempt
  cases hwalk : Walk.walk f tokens builder [] id ⟨[], setting, []⟩ with
  | ok outs behind =>
      rw [hwalk] at h
      cases h
  | error halt behind =>
      rw [hwalk] at h
      cases h
      rfl

/-- Attempts for something that an enumeration gives, or for nothing when it is
    at its end, do not fail. -/
theorem Yields.ending_ne_fault {e : Enumeration T N Tok Out} {outs : List Out} (h : e.Yields outs)
    {tried : Attempt T N Tok Out} (htried : tried ∈ e.next.1.attempts) :
    tried.ending ≠ .halted .fault := by
  rcases h.attempts with ⟨hnil, _⟩ | ⟨pruned, last, hattempts, hpruned, hlast⟩
  · rw [hnil] at htried
    exact absurd htried List.not_mem_nil
  · rw [hattempts] at htried
    intro hfault
    rcases List.mem_append.mp htried with htried | htried
    · rw [hpruned tried htried] at hfault
      cases hfault
    · rw [List.mem_singleton.mp htried] at hfault
      rcases hlast with ⟨out, hout, _⟩ | ⟨hcycle, _⟩
      · rw [hout] at hfault
        cases hfault
      · rw [hcycle] at hfault
        cases hfault

/-- The attempts of an enumeration that was not refused are those at its
    settings, however often it has gone on. -/
theorem attempts_after_eq_map {e : Enumeration T N Tok Out}
    (he : ofRoot f (some id) tokens builder = .ok e) (count : Nat) :
    (e.after count).next.1.attempts =
      (e.after count).settings.map (attempt f tokens builder id) := by
  rw [(ofRoot_eq_ok_iff.mp he).1]
  rcases exists_after_eq (some []) count with ⟨later, hlater⟩
  rw [Option.map_some] at hlater
  rw [hlater]
  exact attempts_eq_map later

/-- None of these attempts fails if the forest is sound. -/
theorem ending_ne_fault {g : Grammar T N} {input : List T} (hsound : f.Sound g input)
    {e : Enumeration T N Tok Out} (he : ofRoot f (some id) tokens builder = .ok e) {count : Nat}
    {tried : Attempt T N Tok Out} (htried : tried ∈ (e.after count).next.1.attempts) :
    tried.ending ≠ .halted .fault := by
  rcases ofRoot_eq_ok_iff.mp he with ⟨_, node, hnode, hlabel, htokens⟩
  rcases yields_nested hsound (Forest.has_of_node? hnode) hlabel htokens builder with
    ⟨e', he', hyields⟩
  rw [he, Except.ok.injEq] at he'
  subst he'
  exact (hyields.after count).ending_ne_fault htried

end

end Enumeration

namespace Parser

variable [DecidableEq T] [DecidableEq N]

/-- Without a root an enumeration is not refused and gives nothing. From a node
    of a parse it is refused if the node is a part of a rule's body, and
    otherwise if there are too few tokens, and only then. If it is not refused,
    none of its attempts fails, however often it goes on, and no step of their
    walks; and on the stack there are nodes with families that they have, the
    root at the bottom and no part of a rule's body there. -/
theorem enumeration_faultless (p : Parser T N) (input : List T) (tokens : List Tok)
    (builder : Builder T N Tok Out) :
    (∃ e, Enumeration.ofRoot (p.parse input).forest none tokens builder = .ok e ∧
      ∀ count, (e.after count).next.1.attempts = []) ∧
    ∀ id node, (p.parse input).forest.node? id = some node →
      ((∃ refusal, Enumeration.ofRoot (p.parse input).forest (some id) tokens builder =
          .error refusal) ↔
        node.label.isIntermediate = true ∨ tokens.length < node.span.stop) ∧
      (∀ refusal, Enumeration.ofRoot (p.parse input).forest (some id) tokens builder =
          .error refusal ↔
        node.label.isIntermediate = true ∧ refusal = .intermediateRoot id ∨
          node.label.isIntermediate = false ∧ tokens.length < node.span.stop ∧
            refusal = .tooFewTokens tokens.length node.span.stop) ∧
      ∀ e, Enumeration.ofRoot (p.parse input).forest (some id) tokens builder = .ok e →
        ∀ count,
          (∀ tried ∈ (e.after count).next.1.attempts, tried.ending ≠ .halted .fault) ∧
          (e.after count).next.1.attempts = (e.after count).settings.map
            (Enumeration.attempt (p.parse input).forest tokens builder id) ∧
          ∀ setting ∈ (e.after count).settings, ∀ n,
            (∀ trail, Walk.steps (p.parse input).forest tokens builder id n ⟨[], setting, []⟩ ≠
              .error .fault trail) ∧
            ∀ stack trail, Walk.steps (p.parse input).forest tokens builder id n
                ⟨[], setting, []⟩ = .ok (.busy stack) trail →
              Walk.Seated (p.parse input).forest id stack ∧
              ∀ top rest, stack = top :: rest → top.node.label.isIntermediate = true →
                rest ≠ [] := by
  have hsound : (p.parse input).forest.Sound p.grammar input :=
    (p.grammar.parse_exact input).sound
  refine ⟨⟨_, rfl, Enumeration.attempts_after_of_upcoming rfl⟩, fun id node hnode =>
    ⟨Enumeration.exists_ofRoot_eq_error_iff hnode, Enumeration.ofRoot_eq_error_iff hnode,
      fun e he count => ?_⟩⟩
  have hsettings := Enumeration.attempts_after_eq_map he count
  refine ⟨fun tried htried => Enumeration.ending_ne_fault hsound he htried, hsettings,
    fun setting hsetting n => ⟨fun trail hsteps => ?_, fun stack trail hsteps => ?_⟩⟩
  · -- The attempt at this setting would fail with the step.
    have htried : Enumeration.attempt (p.parse input).forest tokens builder id setting ∈
        (e.after count).next.1.attempts := by
      rw [hsettings]
      exact List.mem_map_of_mem hsetting
    exact Enumeration.ending_ne_fault hsound he htried
      (Enumeration.ending_of_whole (Walk.error_of_steps hsteps))
  · have hseated : Walk.Seated (p.parse input).forest id stack := Walk.seated_steps hsteps
    refine ⟨hseated, fun top rest hstack htop => ?_⟩
    subst hstack
    -- It was not refused, so it starts at no part of a rule's body.
    rcases Enumeration.ofRoot_eq_ok_iff.mp he with ⟨_, root, hroot, hlabel, _⟩
    exact hseated.hands_over hroot hlabel htop

/-- From a node that is its own child an enumeration is refused for want of a
    token. With one it is not refused, and none of its attempts fails, though
    there are some that run into the cycle. -/
theorem looped_faultless :
    Enumeration.ofRoot (looped.parse ['a']).forest (some 1) ([] : List Char) Builder.tree =
      .error (.tooFewTokens 0 1) ∧
    ∃ e : Enumeration Char Nat Char (Tree Nat Char),
      Enumeration.ofRoot (looped.parse ['a']).forest (some 1) ['a'] Builder.tree = .ok e ∧
      ∀ count, ∀ tried ∈ (e.after count).next.1.attempts, tried.ending ≠ .halted .fault := by
  rcases (enumeration_faultless looped ['a'] [] Builder.tree).2 1 _ looped_node_one with
    ⟨_, hrefused, _⟩
  rcases (enumeration_faultless looped ['a'] ['a'] Builder.tree).2 1 _ looped_node_one with
    ⟨hrefused', _, hfaultless⟩
  refine ⟨(hrefused _).mpr (Or.inr ⟨rfl, Nat.zero_lt_one, rfl⟩), ?_⟩
  cases hstart : Enumeration.ofRoot (looped.parse ['a']).forest (some 1) ['a'] Builder.tree with
  | error refusal =>
      rcases hrefused'.mp ⟨refusal, hstart⟩ with hlabel | htokens
      · cases hlabel
      · exact absurd htokens (Nat.lt_irrefl 1)
  | ok e => exact ⟨e, rfl, fun count => (hfaultless e hstart count).1⟩

end Parser

end EarleyForest
