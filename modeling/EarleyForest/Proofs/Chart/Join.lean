import EarleyForest.Chart.Front
import EarleyForest.Proofs.Forest.Soundness

/-!
# Moving Items On

An item is found at a position if what it claims to have matched is matched
there and its node is the one node for that. Moving a found item over a node
of its next symbol gives an item that is found where the node ends, and leaves
a record of the step in the forest: the node of the longer match lists the
family of the two nodes. There is one exception. The first symbol out of
several has no node but its own, so there is nothing to record.

## Main definitions

* `Item.Found`: The claim of an item is true.
* `Item.family`: The family that a step over a node adds.
* `Forest.Records`: A step is on record.

## Theorems

* `found_fresh`: Items of which nothing has been matched are found.
* `join_spec`, `moveAll_spec`: What moving items does.
* `complete_spec`: The node of a complete item.
-/

namespace EarleyForest

variable {T N : Type}

/-- What an item claims at a position is true, and its node, which is missing
    as long as the dot is zero, is the node for it. -/
structure Item.Found (g : Grammar T N) (input : List T) (f : Forest T N) (item : Item)
    (position : Nat) : Prop where
  matched : g.Matched input item.rule item.dot item.origin position
  unmade : item.node = none → item.dot = 0
  made {id : NodeId} : item.node = some id →
    ∃ label, g.labelAt? item.rule item.dot = some label ∧ f.Has id label ⟨item.origin, position⟩

/-- The family that a step of an item over a node adds. -/
def Item.family (item : Item) (right : NodeId) : Family :=
  match item.node with
  | none => .unary right
  | some left => .binary left right

/-- The step of an item over a node that ends at a position is on record: the
    node of the longer match lists the family for it. The step over the first
    symbol out of several leaves no record. -/
def Forest.Records (g : Grammar T N) (f : Forest T N) (item : Item) (right : NodeId)
    (position : Nat) : Prop :=
  ∀ r, g.rules[item.rule]? = some r → ¬ (item.dot = 0 ∧ 1 < r.body.length) →
    ∃ id label, g.labelAt? item.rule (item.dot + 1) = some label ∧
      f.Lists id label ⟨item.origin, position⟩ (item.family right)

variable {g : Grammar T N} {input : List T} {f f' : Forest T N}

theorem Item.Found.grows {item : Item} {position : Nat} (h : item.Found g input f position)
    (hgrows : f.Grows f') : item.Found g input f' position where
  matched := h.matched
  unmade := h.unmade
  made hnode := by
    rcases h.made hnode with ⟨label, hlabel, hhas⟩
    exact ⟨label, hlabel, hhas.grows hgrows⟩

/-- An item of which nothing has been matched starts where it stands. -/
theorem Item.Found.origin_eq {item : Item} {position : Nat} (h : item.Found g input f position)
    (hdot : item.dot = 0) : item.origin = position := by
  have hmatched := h.matched
  rw [hdot] at hmatched
  exact hmatched.eq

/-- The items without a node are those of which nothing has been matched. -/
theorem Item.Found.node_eq_none_iff {item : Item} {position : Nat}
    (h : item.Found g input f position) : item.node = none ↔ item.dot = 0 := by
  refine ⟨h.unmade, fun hdot => ?_⟩
  cases hnode : item.node with
  | none => rfl
  | some id =>
      rcases h.made hnode with ⟨label, hlabel, _⟩
      rw [hdot, Grammar.labelAt?_zero] at hlabel
      cases hlabel

theorem Forest.Records.grows {item : Item} {right : NodeId} {position : Nat}
    (h : f.Records g item right position) (hgrows : f.Grows f') :
    f'.Records g item right position := by
  intro r hr hstep
  rcases h r hr hstep with ⟨id, label, hlabel, hlists⟩
  exact ⟨id, label, hlabel, hlists.grows hgrows⟩

/-- Items of which nothing has been matched are found where the head of their
    rule is asked for. -/
theorem found_fresh [DecidableEq N] {n : N} {rule position : Nat}
    (hasked : g.Reaches input n position) (hrule : rule ∈ g.rulesFor n) (f : Forest T N) :
    (Item.fresh position rule).Found g input f position where
  matched := Grammar.matched_fresh hasked hrule
  unmade _ := rfl
  made hnode := by
    cases hnode

/-- The item whose key is that of a given one with the dot moved on. -/
def Item.keyAfter (item : Item) : Nat × Nat × Nat := (item.rule, item.dot + 1, item.origin)

/-- The family that a step adds derives what the longer match says, unless the
    step is over the first symbol out of several. -/
theorem Item.Found.way {item : Item} {k j : Nat} {r : Rule T N} {symbol : Symbol T N}
    {right : NodeId} {label : Label T N} (h : item.Found g input f k)
    (hr : g.rules[item.rule]? = some r) (hsymbol : r.body[item.dot]? = some symbol)
    (hstep : ¬ (item.dot = 0 ∧ 1 < r.body.length))
    (hlabel : g.labelAt? item.rule (item.dot + 1) = some label)
    (hright : f.Has right symbol.label ⟨k, j⟩) :
    f.Way g label ⟨item.origin, j⟩ (item.family right) := by
  cases hnode : item.node with
  | some left =>
      rcases h.made hnode with ⟨before, hbefore, hleft⟩
      rw [Item.family, hnode]
      exact .binary hbefore ((Grammar.symbolAt?_of_rule hr item.dot).trans hsymbol) hlabel hleft
        hright
  | none =>
      -- Without a node nothing was matched before, so the body is this one
      -- symbol.
      have hdot := h.unmade hnode
      have hlt := (List.getElem?_eq_some_iff.mp hsymbol).1
      have hlength : r.body.length = 1 := by omega
      have hbody : r.body = [symbol] := by
        rcases List.length_eq_one_iff.mp hlength with ⟨only, honly⟩
        rw [hdot, honly, List.getElem?_cons_zero, Option.some.injEq] at hsymbol
        rw [honly, hsymbol]
      have hrule : (⟨r.head, [symbol]⟩ : Rule T N) ∈ g.rules := by
        rw [← hbody]
        exact List.mem_of_getElem? hr
      rw [Grammar.labelAt?_succ hr hsymbol, if_neg hstep, if_pos (by omega),
        Option.some.injEq] at hlabel
      rw [← hlabel, Item.family, hnode]
      rw [← h.origin_eq hdot] at hright
      exact .unary hrule hright

variable [DecidableEq T] [DecidableEq N]

namespace Front

/-- A found item moved over a node of its next symbol is found where the node
    ends, and the step is on record. -/
theorem join_spec {s : Front T N} {item : Item} {right : NodeId} {symbol : Symbol T N} {k : Nat}
    (hopen : f.Open g input s.mark s.position) (hfound : item.Found g input f k)
    (hs : item.next? g = some symbol) (hright : f.Has right symbol.label ⟨k, s.position⟩) :
    ∃ id f', s.join g f item right = (id, f') ∧ f.Grows f' ∧
      f'.Open g input s.mark s.position ∧ (item.moved id).Found g input f' s.position ∧
      f'.Records g item right s.position := by
  rcases Grammar.symbolAt?_eq_some_iff.mp hs with ⟨r, hr, hsymbol⟩
  have hnext := Symbol.derives_of_label_holds (hopen.sound.holds hright)
  have hmatched := hfound.matched.move hs hnext
  have hlabel := Grammar.labelAt?_succ hr hsymbol
  by_cases hfirst : item.dot = 0 ∧ 1 < r.body.length
  · -- The first symbol out of several: the step takes over the symbol's node.
    rw [if_pos hfirst] at hlabel
    refine ⟨right, f, by simp only [join, hr, if_pos hfirst], .refl f, hopen, ?_, ?_⟩
    · refine ⟨hmatched, (fun hnode => by cases hnode), fun hnode => ?_⟩
      cases hnode
      -- Nothing was matched before, so the symbol starts at the origin.
      have horigin := hfound.origin_eq hfirst.1
      rw [← horigin] at hright
      exact ⟨_, hlabel, hright⟩
    · intro r' hr' hstep
      rw [hr, Option.some.injEq] at hr'
      subst hr'
      exact absurd hfirst hstep
  · rw [if_neg hfirst] at hlabel
    -- The longer match has a node of its own, whose label is no terminal.
    have hlabel' : ∀ t : T, (if item.dot + 1 = r.body.length then .nonterminal r.head
        else .intermediate item.rule (item.dot + 1) : Label T N) ≠ .terminal t := by
      intro t
      split <;> simp only [ne_eq, reduceCtorEq, not_false_eq_true]
    have hway := hfound.way hr hsymbol hfirst hlabel hright
    rcases Forest.open_pack _ _ hopen rfl (hmatched.holds hlabel) hlabel' hway with
      ⟨id, f', hpack, hgrows, hopen', hlists⟩
    refine ⟨id, f', ?_, hgrows, hopen', ?_, ?_⟩
    · simp only [join, hr, if_neg hfirst]
      exact hpack
    · refine ⟨hmatched, (fun hnode => by cases hnode), fun hnode => ?_⟩
      cases hnode
      exact ⟨_, hlabel, hlists.has⟩
    · intro _ _ _
      exact ⟨id, _, hlabel, hlists⟩

/-- Found items moved over a node of the symbol that they all expect are found
    where the node ends, and all steps are on record. -/
theorem moveAll_spec {s : Front T N} {right : NodeId} {k : Nat} (symbol : Symbol T N)
    (items : List Item) (f : Forest T N) (hopen : f.Open g input s.mark s.position)
    (hright : f.Has right symbol.label ⟨k, s.position⟩)
    (hfound : ∀ item ∈ items, item.Found g input f k)
    (hs : ∀ item ∈ items, item.next? g = some symbol) :
    ∃ moved f', s.moveAll g right f items = (moved, f') ∧ f.Grows f' ∧
      f'.Open g input s.mark s.position ∧
      (∀ item ∈ moved, item.Found g input f' s.position) ∧
      moved.map Item.key = items.map Item.keyAfter ∧
      ∀ item ∈ items, f'.Records g item right s.position := by
  -- Every item finds the forest as the ones before it have left it.
  induction items generalizing f with
  | nil =>
      exact ⟨[], f, rfl, .refl f, hopen, fun _ h => absurd h List.not_mem_nil, rfl,
        fun _ h => absurd h List.not_mem_nil⟩
  | cons item rest ih =>
      rcases join_spec hopen (hfound item List.mem_cons_self) (hs item List.mem_cons_self) hright
        with ⟨id, f₁, hjoin, hgrows₁, hopen₁, hitem, hrecord⟩
      rcases ih f₁ hopen₁ (hright.grows hgrows₁)
          (fun other hother => (hfound other (List.mem_cons_of_mem _ hother)).grows hgrows₁)
          (fun other hother => hs other (List.mem_cons_of_mem _ hother)) with
        ⟨moved, f₂, hmove, hgrows₂, hopen₂, hmoved, hkeys, hrecords⟩
      refine ⟨item.moved id :: moved, f₂, by simp only [moveAll, hjoin, hmove],
        hgrows₁.trans hgrows₂, hopen₂, ?_, ?_, ?_⟩
      · intro other hother
        rcases List.mem_cons.mp hother with rfl | hother
        · exact hitem.grows hgrows₂
        · exact hmoved other hother
      · rw [List.map_cons, List.map_cons, hkeys]
        rfl
      · intro other hother
        rcases List.mem_cons.mp hother with rfl | hother
        · exact hrecord.grows hgrows₂
        · exact hrecords other hother

/-- A complete item has the node of its head over what it has matched. An
    empty body is on record there. -/
theorem complete_spec {s : Front T N} {item : Item} {r : Rule T N}
    (hopen : f.Open g input s.mark s.position) (hfound : item.Found g input f s.position)
    (hr : g.rules[item.rule]? = some r) (hend : r.body[item.dot]? = none) :
    ∃ id f', s.complete f r.head item = (id, f') ∧ f.Grows f' ∧
      f'.Open g input s.mark s.position ∧
      f'.Has id (.nonterminal r.head) ⟨item.origin, s.position⟩ ∧
      (r.body = [] → f'.Lists id (.nonterminal r.head) ⟨item.origin, s.position⟩ .epsilon) := by
  rcases hfound.matched.derives hr hend with ⟨hdot, hderives⟩
  cases hnode : item.node with
  | some id =>
      rcases hfound.made hnode with ⟨label, hlabel, hhas⟩
      have hpos : item.dot ≠ 0 := by
        intro hzero
        rw [hfound.node_eq_none_iff.mpr hzero] at hnode
        cases hnode
      -- The dot is behind the last symbol, so the label is the head's.
      rw [hdot] at hlabel
      have hhead := Grammar.labelAt?_length hr hlabel
      subst hhead
      refine ⟨id, f, by simp only [complete, hnode], .refl f, hopen, hhas, fun hnil => ?_⟩
      rw [hnil, List.length_nil] at hdot
      exact absurd hdot hpos
  | none =>
      have hzero := hfound.unmade hnode
      have hnil : r.body = [] := List.eq_nil_of_length_eq_zero (hdot.symm.trans hzero)
      have horigin := hfound.origin_eq hzero
      have hasked : g.Reaches input r.head s.position := by
        rw [← horigin]
        exact ((Grammar.matched_iff hr).mp hfound.matched).2.1
      have hrule : Rule.epsilon r.head ∈ g.rules := by
        rw [Rule.epsilon, ← hnil]
        exact List.mem_of_getElem? hr
      rw [horigin] at hderives
      rcases Forest.open_pack (.nonterminal r.head) ⟨s.position, s.position⟩ hopen rfl
          ⟨hasked, hderives⟩ (fun t h => by cases h) (.epsilon hrule) with
        ⟨id, f', hpack, hgrows, hopen', hlists⟩
      rw [horigin]
      refine ⟨id, f', ?_, hgrows, hopen', hlists.has, fun _ => hlists⟩
      simp only [complete, hnode]
      exact hpack

end Front

end EarleyForest
