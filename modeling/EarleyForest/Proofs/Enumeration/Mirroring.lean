import EarleyForest.Proofs.Enumeration.Cycles
import EarleyForest.Proofs.Enumeration.Sequence
import EarleyForest.Proofs.Tree.Folding

/-!
# Two Builders in Step

A walk takes its way through the forest without a look at what is made on it.
So two walks from one node, for two builders and two lists of tokens, take the
same way if the same digits are set: both come to the end or both stop short,
at the same place and for the same reason. If one of the two makes derivation
trees, what the other makes can be made of these trees.

Below a node from which no node leads back to itself neither of them runs into
a cycle.

## Main definitions

* `Walk.Alike`: The results of two parts of walks in step.
* `Walk.Mirrors`: Two parts of walks are in step.
* `Attempt.Mirrors`: Two attempts are in step.
* `Enumeration.InStep`: So are the attempts at each setting.

## Theorems

* `Mirrors.bind`: One part of a walk after another.
* `mirrors_choose`, `mirrors_leaf`, `mirrors_finish`: The parts of a walk.
* `mirrors_walk`: Walks in a sound forest are in step.
* `inStep_of_mirrors`, `InStep.search`: So are attempts and searches.
-/

namespace EarleyForest

variable {T N Tok Tok' Out α β γ δ : Type}

namespace Walk

/-- The results of two parts of walks in step. Both come to the end, with
    values and new calls of the second one that are related, or both stop short
    for an allowed reason. The digits are the same. -/
inductive Alike (allowed : Halt → Prop) (related : α → β → List (Call T N Tok) → Prop)
    (calls : List (Call T N Tok)) :
    EStateM.Result Halt (Trail T N Tok') α → EStateM.Result Halt (Trail T N Tok) β → Prop where
  | ok {a : α} {b : β} {made : List (Call T N Tok)} {calls' : List (Call T N Tok')}
      (read ahead : List Digit) (values : related a b made) :
      Alike allowed related calls (.ok a ⟨read, ahead, calls'⟩)
        (.ok b ⟨read, ahead, made.reverse ++ calls⟩)
  | error {reason : Halt} {calls' : List (Call T N Tok')} {calls'' : List (Call T N Tok)}
      (read ahead : List Digit) (halts : allowed reason) :
      Alike allowed related calls (.error reason ⟨read, ahead, calls'⟩)
        (.error reason ⟨read, ahead, calls''⟩)

/-- Two parts of walks are in step, whatever digits are set. -/
def Mirrors (allowed : Halt → Prop) (related : α → β → List (Call T N Tok) → Prop)
    (first : Walk T N Tok' α) (second : Walk T N Tok β) : Prop :=
  ∀ read ahead calls' calls,
    Alike allowed related calls (first ⟨read, ahead, calls'⟩) (second ⟨read, ahead, calls⟩)

variable {allowed : Halt → Prop} {related : α → β → List (Call T N Tok) → Prop}
  {related' : γ → δ → List (Call T N Tok) → Prop}

theorem Alike.unchanged {a : α} {b : β} (read ahead : List Digit) {calls' : List (Call T N Tok')}
    {calls : List (Call T N Tok)} (h : related a b []) : Alike allowed related calls
      (.ok a ⟨read, ahead, calls'⟩) (.ok b ⟨read, ahead, calls⟩) := .ok read ahead h

theorem mirrors_pure {a : α} {b : β} (h : related a b []) :
    Mirrors allowed related (pure a : Walk T N Tok' α) (pure b) :=
  fun read ahead _ _ => .unchanged read ahead h

theorem mirrors_throw {reason : Halt} (h : allowed reason) :
    Mirrors allowed related (throw reason : Walk T N Tok' α) (throw reason) :=
  fun read ahead _ _ => .error read ahead h

theorem mirrors_note (call' : Call T N Tok') {call : Call T N Tok} {a : α} {b : β}
    (h : related a b [call]) :
    Mirrors allowed related (do note call'; pure a) (do note call; pure b) :=
  fun read ahead _ _ => .ok read ahead h

theorem Mirrors.mono {wider : α → β → List (Call T N Tok) → Prop} {first : Walk T N Tok' α}
    {second : Walk T N Tok β} (h : Mirrors allowed related first second)
    (hwider : ∀ a b made, related a b made → wider a b made) :
    Mirrors allowed wider first second := by
  intro read ahead calls' calls
  have hresults := h read ahead calls' calls
  generalize first ⟨read, ahead, calls'⟩ = result at hresults ⊢
  generalize second ⟨read, ahead, calls⟩ = result' at hresults ⊢
  cases hresults with
  | ok read ahead values => exact .ok read ahead (hwider _ _ _ values)
  | error read ahead halts => exact .error read ahead halts

/-- One part of a walk after another. What the second one does may depend on
    what the first one has done. -/
theorem Mirrors.bind {first : Walk T N Tok' α} {second : Walk T N Tok β}
    {next : α → Walk T N Tok' γ} {next' : β → Walk T N Tok δ}
    (h : Mirrors allowed related first second)
    (hnext : ∀ a b made, related a b made →
      Mirrors allowed (fun c d more => related' c d (made ++ more)) (next a) (next' b)) :
    Mirrors allowed related' (first >>= next) (second >>= next') := by
  intro read ahead calls' calls
  have hfirst := h read ahead calls' calls
  simp only [Bind.bind, EStateM.bind]
  generalize first ⟨read, ahead, calls'⟩ = result at hfirst
  generalize second ⟨read, ahead, calls⟩ = result' at hfirst
  cases hfirst with
  | error read ahead halts => exact .error read ahead halts
  | @ok a b made calls'' read ahead values =>
      have hsecond := hnext a b made values read ahead calls'' (made.reverse ++ calls)
      simp only
      generalize next a ⟨read, ahead, calls''⟩ = result at hsecond
      generalize next' b ⟨read, ahead, made.reverse ++ calls⟩ = result' at hsecond
      cases hsecond with
      | error read ahead halts => exact .error read ahead halts
      | @ok c d more _ read ahead values =>
          -- The calls of both parts are one list.
          rw [← List.append_assoc, ← List.reverse_append]
          exact .ok read ahead values

/-- Both walks read the same digit. -/
theorem mirrors_digit (count : Nat) : Mirrors (T := T) (N := N) allowed
    (fun taken taken' (made : List (Call T N Tok)) => taken = taken' ∧ made = [])
    (digit count : Walk T N Tok' Nat) (digit count) := by
  intro read ahead calls' calls
  cases ahead with
  | nil => exact .unchanged _ _ ⟨rfl, rfl⟩
  | cons first rest => exact .unchanged _ _ ⟨rfl, rfl⟩

/-- Both walks pick the same family. -/
theorem mirrors_choose (hfault : allowed .fault) (families : List Family) :
    Mirrors (T := T) (N := N) allowed
      (fun family family' (made : List (Call T N Tok)) =>
        family = family' ∧ family ∈ families ∧ made = [])
      (choose families : Walk T N Tok' Family) (choose families) := by
  match families with
  | [] => exact mirrors_throw hfault
  | [only] => exact mirrors_pure ⟨rfl, List.mem_singleton_self only, rfl⟩
  | first :: second :: rest =>
      refine (mirrors_digit _).bind fun taken taken' made htaken => ?_
      rcases htaken with ⟨rfl, rfl⟩
      cases hfamily : (first :: second :: rest)[taken]? with
      | none => exact mirrors_throw hfault
      | some family => exact mirrors_pure ⟨rfl, List.mem_of_getElem? hfamily, rfl⟩

section

variable {g : Grammar T N} {input : List T} {f : Forest T N} {tokens : List Tok}
  {tokens' : List Tok'} {builder : Builder T N Tok Out}

/-- Both walks make a leaf of the terminal, each of its own token. -/
theorem mirrors_leaf {t : T} {span : Span}
    (hholds : (Label.terminal t : Label T N).Holds g input span)
    (htokens' : span.stop ≤ tokens'.length) (htokens : span.stop ≤ tokens.length) :
    Mirrors allowed (Tree.Made input tokens builder) (leaf tokens' Builder.tree t span)
      (leaf tokens builder t span) := by
  rcases span with ⟨p, stop⟩
  rcases hholds with ⟨ht, rfl⟩
  have htoken' := List.getElem?_eq_getElem (Nat.lt_of_succ_le htokens')
  have htoken := List.getElem?_eq_getElem (Nat.lt_of_succ_le htokens)
  simp only [leaf, htoken', htoken]
  exact mirrors_note _ (Tree.made_leaf _ ht htoken)

/-- Both walks make the same of a node, each out of what it has made below. -/
theorem mirrors_finish {node : Node T N} {family : Family} {trees : List (Tree N Tok')}
    {outs : List Out} {made : List (Call T N Tok)}
    (hway : f.Way g node.label node.span family)
    (hmade : Tree.Made input tokens builder trees outs made)
    (hempty : family = .epsilon → trees = [] ∧ outs = [] ∧ made = []) :
    Mirrors allowed
      (fun trees outs more => Tree.Made input tokens builder trees outs (made ++ more))
      (finish Builder.tree node family trees) (finish builder node family outs) := by
  rcases node with ⟨label, span, families⟩
  simp only [finish]
  simp only at hway
  -- An empty family has nothing below it and an empty span; the other families
  -- make a branch, or leave a part of a rule's body as it is.
  cases hway with
  | epsilon rule =>
      rcases hempty rfl with ⟨rfl, rfl, rfl⟩
      exact mirrors_note _ (Tree.made_covert _ _)
  | unary rule below => exact mirrors_note _ (hmade.branch _ _)
  | binary hbefore hs hafter hleft hright =>
      cases label with
      | terminal t => exact mirrors_pure (by rwa [List.append_nil])
      | nonterminal n => exact mirrors_note _ (hmade.branch _ _)
      | intermediate rule dot => exact mirrors_pure (by rwa [List.append_nil])

/-- In a sound forest, with a token for each position of the node's span on
    both sides, a walk that makes trees and any other walk are in step. They run
    into a cycle only if some node below leads back to itself or to the path. -/
theorem mirrors_walk (hsound : f.Sound g input) (hfault : allowed .fault) (path : List NodeId)
    {id : NodeId} (hcycle : allowed .cycle ∨ f.Clear path id) {label : Label T N} {span : Span}
    (hhas : f.Has id label span) (htokens' : span.stop ≤ tokens'.length)
    (htokens : span.stop ≤ tokens.length) :
    Mirrors allowed (Tree.Made input tokens builder) (walk f tokens' Builder.tree path id)
      (walk f tokens builder path id) := by
  fun_induction walk f tokens builder path id generalizing label span with
  | case1 path id hnode =>
      exact absurd hnode hhas.node?_ne_none
  | case2 path id node hnode t hlabel =>
      rcases hhas.eq (Forest.has_of_node? hnode) with ⟨rfl, rfl⟩
      rw [hlabel] at hhas
      rw [walk_leaf hnode hlabel]
      exact mirrors_leaf (hsound.holds hhas) htokens' htokens
  | case3 path id node hnode hpath hlabel =>
      rw [walk_cycle hnode hlabel hpath]
      rcases hcycle with hallowed | hclear
      · exact mirrors_throw hallowed
      · exact absurd hpath hclear.not_mem
  | case4 path id node hnode hpath hlabel ih =>
      rcases hhas.eq (Forest.has_of_node? hnode) with ⟨rfl, rfl⟩
      rw [walk_inner hnode hlabel hpath]
      refine (mirrors_choose hfault node.families).bind fun family family' made hfamily => ?_
      rcases hfamily with ⟨rfl, hfamily, rfl⟩
      have hlists : f.Lists id node.label node.span family := ⟨node.families, hnode, hfamily⟩
      have hway := hsound.way hlists
      -- What holds of the node holds of its children.
      have hchild : ∀ child ∈ family.children,
          Mirrors allowed (Tree.Made input tokens builder)
            (walk f tokens' Builder.tree (id :: path) child)
            (walk f tokens builder (id :: path) child) := by
        intro child hchild
        rcases hsound.child hway hchild with ⟨label', span', hhas', _, hstop⟩
        refine ih child (hcycle.imp_right fun hclear => ?_) hhas' (Nat.le_trans hstop htokens')
          (Nat.le_trans hstop htokens)
        exact hclear.child (Forest.child_iff.mpr ⟨_, _, family, hlists, hchild⟩)
      refine Mirrors.bind (?_ : Mirrors allowed (fun trees outs made =>
        Tree.Made input tokens builder trees outs made ∧
          (family = .epsilon → trees = [] ∧ outs = [] ∧ made = [])) _ _)
        fun trees outs made hmade => mirrors_finish hway hmade.1 hmade.2
      cases family with
      | epsilon => exact mirrors_pure ⟨Tree.made_nil, fun _ => ⟨rfl, rfl, rfl⟩⟩
      | unary child =>
          exact (hchild child (List.mem_singleton_self child)).mono fun _ _ _ hmade =>
            ⟨hmade, fun hepsilon => by cases hepsilon⟩
      | binary left right =>
          refine (hchild left List.mem_cons_self).bind fun before before' made hleft => ?_
          refine (hchild right (List.mem_cons_of_mem _ (List.mem_singleton_self right))).bind
            fun behind behind' more hright => mirrors_pure ?_
          rw [List.append_nil]
          exact ⟨hleft.append hright, fun hepsilon => by cases hepsilon⟩

end

end Walk

/-- Two attempts in step: what the second one has built can be made of the tree
    that the first one has, by the calls of the second one, or both have halted
    for an allowed reason. The digits are the same. -/
inductive Attempt.Mirrors (allowed : Halt → Prop) (input : List T) (tokens : List Tok)
    (builder : Builder T N Tok Out) :
    Attempt T N Tok' (Tree N Tok') → Attempt T N Tok Out → Prop where
  | built {tree : Tree N Tok'} {out : Out} {digits : List Digit} {calls' : List (Call T N Tok')}
      {calls : List (Call T N Tok)} (fold : tree.fold? input tokens builder = some out)
      (made : tree.postorder.map (Tree.call? input tokens) = calls.map some) :
      Mirrors allowed input tokens builder ⟨.built tree, digits, calls'⟩ ⟨.built out, digits, calls⟩
  | halted {reason : Halt} {digits : List Digit} {calls' : List (Call T N Tok')}
      {calls : List (Call T N Tok)} (halts : allowed reason) :
      Mirrors allowed input tokens builder ⟨.halted reason, digits, calls'⟩
        ⟨.halted reason, digits, calls⟩

/-- A search goes on from both of two attempts in step, or from none. -/
theorem Attempt.Mirrors.same {allowed : Halt → Prop} {input : List T} {tokens : List Tok}
    {builder : Builder T N Tok Out} {first : Attempt T N Tok' (Tree N Tok')}
    {second : Attempt T N Tok Out} (h : first.Mirrors allowed input tokens builder second) :
    second.digits = first.digits ∧
      (second.ending = .halted .cycle ↔ first.ending = .halted .cycle) := by
  cases h with
  | built fold made => exact ⟨rfl, ⟨fun h => (by cases h), fun h => by cases h⟩⟩
  | @halted reason _ _ _ halts =>
      refine ⟨rfl, ?_⟩
      simp only [Ending.halted.injEq]

namespace Enumeration

/-- The attempts at each setting are in step. -/
def InStep (allowed : Halt → Prop) (input : List T) (f : Forest T N) (tokens' : List Tok')
    (tokens : List Tok) (builder : Builder T N Tok Out) (root : NodeId) : Prop :=
  ∀ setting, Attempt.Mirrors allowed input tokens builder
    (attempt f tokens' Builder.tree root setting) (attempt f tokens builder root setting)

section

variable {input : List T} {f : Forest T N} {tokens : List Tok} {tokens' : List Tok'}
  {builder : Builder T N Tok Out} {root : NodeId} {allowed : Halt → Prop}

/-- Attempts are in step if their walks are. -/
theorem inStep_of_mirrors (h : Walk.Mirrors allowed (Tree.Made input tokens builder)
      (Walk.walk f tokens' Builder.tree [] root) (Walk.walk f tokens builder [] root))
    (hfault : allowed .fault) : InStep allowed input f tokens' tokens builder root := by
  intro setting
  have hresults := h [] setting [] []
  unfold attempt
  generalize Walk.walk f tokens' Builder.tree [] root ⟨[], setting, []⟩ = result at hresults ⊢
  generalize Walk.walk f tokens builder [] root ⟨[], setting, []⟩ = result' at hresults ⊢
  cases hresults with
  | error read ahead halts => exact .halted halts
  | @ok trees outs made _ read ahead values =>
      -- One thing is made if and only if there is one tree.
      have hlength := Tree.length_of_foldAll? values.fold
      match trees, outs, hlength with
      | [], [], _ => exact .halted hfault
      | [tree], [out], _ =>
          rcases values.single with ⟨hfold, hcalls⟩
          refine .built hfold ?_
          rw [List.append_nil, List.reverse_reverse]
          exact hcalls
      | _ :: _ :: _, _ :: _ :: _, _ => exact .halted hfault

theorem search_of_cycle {setting next : List Digit}
    (hcycle : (attempt f tokens builder root setting).ending = .halted .cycle)
    (hnext : Odometer.advance (attempt f tokens builder root setting).digits = some next) :
    search f tokens builder root setting =
      attempt f tokens builder root setting :: search f tokens builder root next := by
  rw [search]
  split
  · split
    · rename_i next' hnext'
      rw [hnext, Option.some.injEq] at hnext'
      rw [hnext']
    · rename_i hnone
      rw [hnext] at hnone
      cases hnone
  · rename_i hnot
    exact absurd hcycle hnot

theorem search_of_end {setting : List Digit}
    (h : (attempt f tokens builder root setting).ending = .halted .cycle →
      Odometer.advance (attempt f tokens builder root setting).digits = none) :
    search f tokens builder root setting = [attempt f tokens builder root setting] := by
  rw [search]
  split
  · rename_i hcycle
    split
    · rename_i next hnext
      rw [h hcycle] at hnext
      cases hnext
    · rfl
  · rfl

/-- Searches from one setting try the same settings and end at the same one. -/
theorem InStep.search (h : InStep allowed input f tokens' tokens builder root)
    (setting : List Digit) :
    List.Forall₂ (Attempt.Mirrors allowed input tokens builder)
      (search f tokens' Builder.tree root setting) (search f tokens builder root setting) := by
  fun_induction Enumeration.search f tokens' Builder.tree root setting with
  | case1 setting tried hcycle next hnext ih =>
      rcases (h setting).same with ⟨hdigits, hending⟩
      rw [search_of_cycle (hending.mpr hcycle) (by rw [hdigits]; exact hnext)]
      exact .cons (h setting) ih
  | case2 setting tried hcycle hnext =>
      rcases (h setting).same with ⟨hdigits, _⟩
      rw [search_of_end fun _ => (by rw [hdigits]; exact hnext)]
      exact .cons (h setting) .nil
  | case3 setting tried hcycle =>
      rcases (h setting).same with ⟨_, hending⟩
      rw [search_of_end fun hcycle' => absurd (hending.mp hcycle') hcycle]
      exact .cons (h setting) .nil

end

end Enumeration

end EarleyForest
