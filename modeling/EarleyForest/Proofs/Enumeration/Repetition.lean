import EarleyForest.Proofs.Enumeration.Descent

/-!
# What Is Met Again

A walk is stopped where it meets a node again on its way down. The tree that
it was about to make tells by itself that this happens, since a node stands
for a label over a span. Either a nonterminal occurs inside itself over the
same span, or a part of a rule's body does: two symbols or more, and not all,
of the same rule derive the same span twice, once inside the other.

The second does not follow from the first. A rule may be used once more inside
a part of its body over that same part, with fewer symbols derived from what
is left of the input, so that the two nonterminals have different spans.

## Main definitions

* `Tree.upTo`: The span of the first children of a tree.
* `Tree.RepeatsPart`: A part of a rule's body occurs inside itself over the
  same span.
* `Forest.Place`: Where in some trees a derivation further down is found.

## Theorems

* `place_of_under`: A derivation further down has its place in the trees.
* `repeats_of_whole`, `repeatsPart_of_part`: What is repeated when a node is met
  again.
* `repeats_of_not_free`: A tree that is not free repeats a nonterminal or a
  part of a rule's body.
-/

namespace EarleyForest

variable {T N Tok : Type}

namespace Tree

/-- Where trees side by side stop that start at a position. -/
def stopFrom (start : Nat) : List (Tree N Tok) → Nat
  | [] => start
  | tree :: rest => stopFrom tree.span.stop rest

/-- The span of the first `dot` children of a tree. -/
def upTo (dot : Nat) (tree : Tree N Tok) : Span :=
  ⟨tree.span.start, stopFrom tree.span.start (tree.children.take dot)⟩

/-- Somewhere in the tree a part of a rule's body, two symbols or more and not
    all of them, occurs inside the same part of the same rule over the same
    span. -/
def RepeatsPart (input : List T) (tree : Tree N Tok) : Prop :=
  ∃ (outer inner : Tree N Tok) (r : Rule T N) (dot : Nat),
    Relation.ReflTransGen Child outer tree ∧
    (∃ part ∈ outer.children.take dot, Relation.ReflTransGen Child inner part) ∧
    2 ≤ dot ∧ dot < r.body.length ∧ outer.rule? input = some r ∧ inner.rule? input = some r ∧
    inner.upTo dot = outer.upTo dot

theorem ShowAll.stopFrom_eq {g : Grammar T N} {input : List T} {tokens : List Tok}
    {trees : List (Tree N Tok)} {symbols : List (Symbol T N)} {i j : Nat}
    (h : ShowAll g input tokens trees symbols i j) : stopFrom i trees = j := by
  induction trees generalizing symbols i with
  | nil =>
      cases h
      rfl
  | cons tree rest ih =>
      cases h with
      | cons hfirst hrest =>
          rw [stopFrom, hfirst.span_eq]
          exact ih hrest

end Tree

/-- A label is that of a symbol, or names a rule and a dot. -/
theorem Label.symbol_or_intermediate (label : Label T N) :
    (∃ s : Symbol T N, label = s.label) ∨ ∃ rule dot, label = .intermediate rule dot := by
  cases label with
  | terminal t => exact Or.inl ⟨.terminal t, rfl⟩
  | nonterminal n => exact Or.inl ⟨.nonterminal n, rfl⟩
  | intermediate rule dot => exact Or.inr ⟨rule, dot, rfl⟩

namespace Forest

/-- Where in some trees a derivation is found, a node and its trees: a symbol's
    is a tree inside one of them, and that of a part of a rule's body is the
    first children of a tree inside one of them. -/
inductive Place (g : Grammar T N) (input : List T) (f : Forest T N) (roots : List (Tree N Tok)) :
    NodeId × List (Tree N Tok) → Prop where
  | whole {id : NodeId} {s : Symbol T N} {span : Span} {tree root : Tree N Tok}
      (hhas : f.Has id s.label span) (hroot : root ∈ roots)
      (within : Relation.ReflTransGen Tree.Child tree root) : Place g input f roots (id, [tree])
  | part {id : NodeId} {rule dot stop : Nat} {r : Rule T N} {owner root : Tree N Tok}
      (hhas : f.Has id (.intermediate rule dot) ⟨owner.span.start, stop⟩)
      (hr : g.rules[rule]? = some r) (howner : owner.rule? input = some r) (hroot : root ∈ roots)
      (within : Relation.ReflTransGen Tree.Child owner root) :
      Place g input f roots (id, owner.children.take dot)

variable {g : Grammar T N} {input : List T} {tokens : List Tok} {f : Forest T N}

/-- What is right below a place in some trees has its place there too. -/
theorem Place.under (hsound : f.Sound g input) {roots : List (Tree N Tok)}
    {below above : NodeId × List (Tree N Tok)} (h : Place g input f roots above)
    (hbelow : f.Under g input tokens below above) : Place g input f roots below := by
  rcases below with ⟨id, trees⟩
  cases h with
  | whole hhas hroot within =>
      rcases hbelow.of_symbol hsound hhas with
        ⟨top, htop, ⟨s', span', tree, hbelow', htrees, hchild⟩ |
          ⟨rule, dot, r, stop, hbelow', hr, hrule, hspan, htrees⟩⟩
      · cases htop
        simp only at htrees hbelow'
        subst htrees
        exact .whole hbelow' hroot (within.head hchild)
      · cases htop
        simp only at htrees hbelow'
        subst htrees
        rw [← hspan] at hbelow'
        exact .part hbelow' hr hrule hroot within
  | @part _ rule dot stop r owner root hhas hr howner hroot within =>
      rcases hbelow.of_intermediate hsound hhas with
        ⟨s', span', tree, hbelow', htrees, hmem⟩ | ⟨less, stop', hless, hbelow', htrees⟩
      · simp only at htrees hbelow'
        subst htrees
        exact .whole hbelow' hroot (within.head (List.mem_of_mem_take hmem))
      · simp only at htrees hbelow'
        rw [List.take_take, Nat.min_eq_left (Nat.le_of_lt hless)] at htrees
        subst htrees
        exact .part hbelow' hr howner hroot within

/-- A derivation further down has its place in the trees, or it is a shorter
    part of the same rule's body, with the first of these trees. -/
theorem place_of_under (hsound : f.Sound g input) (top : NodeId × List (Tree N Tok))
    {below : NodeId × List (Tree N Tok)} {label : Label T N} {span : Span}
    (hhas : f.Has top.1 label span)
    (hshown : f.Shown g input tokens top.1 top.2)
    (h : Relation.ReflTransGen (f.Under g input tokens) below top) :
    Place g input f top.2 below ∨ ∃ rule dot less stop, label = .intermediate rule dot ∧
      less ≤ dot ∧ f.Has below.1 (.intermediate rule less) ⟨span.start, stop⟩ ∧
      below.2 = top.2.take less := by
  -- By induction on the way down. It leads through shorter and shorter parts of
  -- the body until it comes to one of the trees.
  induction h using Relation.ReflTransGen.head_induction_on with
  | refl =>
      rcases top with ⟨id, trees⟩
      rcases label.symbol_or_intermediate with ⟨s, rfl⟩ | ⟨rule, dot, rfl⟩
      · rcases (shown_symbol_iff hhas).mp hshown with ⟨tree, rfl, _⟩
        exact Or.inl (.whole hhas (List.mem_singleton_self tree) .refl)
      · refine Or.inr ⟨rule, dot, dot, span.stop, rfl, Nat.le_refl _, hhas, ?_⟩
        have hshow := (shown_iff hhas).mp hshown
        rcases hsound.holds hhas with ⟨_, ⟨r, hr, hlt⟩, _⟩
        have hlength := hshow.length_eq
        simp only [Grammar.spelled, hr, Option.map_some, Option.getD_some,
          List.length_take_of_le (Nat.le_of_lt hlt)] at hlength
        exact (List.take_of_length_le (Nat.le_of_eq hlength)).symm
  | @head below middle hstep _ ih =>
      rcases ih with hplace | ⟨rule, dot, less, stop, hlabel, hle, hmiddle, htrees⟩
      · exact Or.inl (hplace.under hsound hstep)
      · rcases hstep.of_intermediate hsound hmiddle with
          ⟨s', span', tree, hbelow, htree, hmem⟩ | ⟨less', stop', hless, hbelow, htrees'⟩
        · rw [htrees] at hmem
          rcases below with ⟨id, trees⟩
          simp only at htree hbelow
          subst htree
          exact Or.inl (.whole hbelow (List.mem_of_mem_take hmem) .refl)
        · refine Or.inr ⟨rule, dot, less', stop', hlabel, by omega, hbelow, ?_⟩
          rw [htrees', htrees, List.take_take, Nat.min_eq_left (Nat.le_of_lt hless)]

theorem sizeAll_lt_of_under (hsound : f.Sound g input) {inner outer : NodeId × List (Tree N Tok)}
    (h : Relation.TransGen (f.Under g input tokens) inner outer) :
    Tree.sizeAll inner.2 < Tree.sizeAll outer.2 := by
  induction h with
  | single hstep => exact hstep.sizeAll_lt hsound
  | tail _ hstep ih => exact Nat.lt_trans ih (hstep.sizeAll_lt hsound)

theorem shown_of_under (top : NodeId × List (Tree N Tok)) {below : NodeId × List (Tree N Tok)}
    (hshown : f.Shown g input tokens top.1 top.2)
    (h : Relation.ReflTransGen (f.Under g input tokens) below top) :
    f.Shown g input tokens below.1 below.2 := by
  rcases Relation.ReflTransGen.cases_head h with rfl | ⟨_, ⟨_, _, _, _, _, _, hportion⟩, _⟩
  · exact hshown
  · exact hportion.shown

/-- If the node of a symbol is met again below itself, with a smaller tree,
    then the symbol is a nonterminal that occurs inside itself. -/
theorem repeats_of_whole {id : NodeId} {s : Symbol T N} {span : Span} {inner outer : Tree N Tok}
    (hhas : f.Has id s.label span) (houter : f.Shown g input tokens id [outer])
    (hinner : f.Shown g input tokens id [inner])
    (hwithin : Relation.ReflTransGen Tree.Child inner outer)
    (hsize : Tree.sizeAll [inner] < Tree.sizeAll [outer]) {tree : Tree N Tok}
    (htree : Relation.ReflTransGen Tree.Child outer tree) : tree.Repeats := by
  rcases (shown_symbol_iff hhas).mp houter with ⟨_, heq, hshows⟩
  rcases (shown_symbol_iff hhas).mp hinner with ⟨_, heq', hshows'⟩
  rw [List.singleton_inj] at heq heq'
  subst heq
  subst heq'
  rcases Relation.reflTransGen_iff_eq_or_transGen.mp hwithin with rfl | hwithin
  · exact absurd hsize (Nat.lt_irrefl _)
  · -- Only the tree of a nonterminal has a tree inside.
    rcases Relation.TransGen.tail'_iff.mp hwithin with ⟨_, _, hchild⟩
    rcases hshows.child hchild with ⟨r, _, rfl, _⟩
    exact ⟨outer, inner, r.head, htree, hwithin, hshows.label?_eq, hshows'.label?_eq, by
      rw [hshows.span_eq, hshows'.span_eq]⟩

/-- If the node of a part of a rule's body is met again below itself, then the
    part occurs inside itself over the same span. -/
theorem repeatsPart_of_part (hsound : f.Sound g input) {id : NodeId} {rule dot stop stop' : Nat}
    {r : Rule T N} {outer inner : Tree N Tok} (hr : g.rules[rule]? = some r)
    (hhas : f.Has id (.intermediate rule dot) ⟨outer.span.start, stop⟩)
    (hhas' : f.Has id (.intermediate rule dot) ⟨inner.span.start, stop'⟩)
    (houter : f.Shown g input tokens id (outer.children.take dot))
    (hinner : f.Shown g input tokens id (inner.children.take dot))
    (hrule : outer.rule? input = some r) (hrule' : inner.rule? input = some r)
    (hwithin : ∃ root ∈ outer.children.take dot, Relation.ReflTransGen Tree.Child inner root)
    {tree : Tree N Tok} (htree : Relation.ReflTransGen Tree.Child outer tree) :
    tree.RepeatsPart input := by
  rcases hsound.holds hhas with ⟨hdot, ⟨r', hr', hlt⟩, _⟩
  rw [hr, Option.some.injEq] at hr'
  rw [← hr'] at hlt
  refine ⟨outer, inner, r, dot, htree, hwithin, hdot, hlt, hrule, hrule', ?_⟩
  -- The trees of either occurrence end where the node does.
  rw [Tree.upTo, Tree.upTo, ((shown_iff hhas).mp houter).stopFrom_eq,
    ((shown_iff hhas').mp hinner).stopFrom_eq]
  exact (hhas.eq hhas').2.symm

/-- A tree whose derivation meets a node again repeats a nonterminal or a part
    of a rule's body. -/
theorem repeats_of_not_free (hsound : f.Sound g input) {id : NodeId} {s : Symbol T N} {span : Span}
    {tree : Tree N Tok} (hhas : f.Has id s.label span)
    (hshown : f.Shown g input tokens id [tree])
    (h : ¬ f.Free g input tokens [] (id, [tree])) : tree.Repeats ∨ tree.RepeatsPart input := by
  simp only [Free, List.not_mem_nil, not_false_eq_true, true_and, not_forall, not_not] at h
  rcases h with ⟨⟨v, trees⟩, houter, ⟨v', trees'⟩, hinner, hsame⟩
  simp only at hsame
  subst hsame
  -- Both derivations at the node have their trees, and the inner ones are
  -- smaller.
  have hsize := sizeAll_lt_of_under hsound hinner
  have hshown' : f.Shown g input tokens v' trees :=
    shown_of_under (id, [tree]) hshown houter
  have hshown'' : f.Shown g input tokens v' trees' :=
    shown_of_under (v', trees) hshown' hinner.to_reflTransGen
  rcases place_of_under hsound (id, [tree]) hhas hshown houter with
    hplace | ⟨_, _, _, _, hlabel, _⟩
  · cases hplace with
    | whole hv hroot within =>
        rw [List.mem_singleton.mp hroot] at within
        rcases place_of_under hsound (v', _) hv hshown' hinner.to_reflTransGen with
          hplace' | ⟨_, _, _, _, hlabel, _⟩
        · cases hplace' with
          | whole hv' hroot' within' =>
              rw [List.mem_singleton.mp hroot'] at within'
              exact Or.inl (repeats_of_whole hv hshown' hshown'' within' hsize within)
          | part hv' => exact absurd (hv.eq hv').1 (Symbol.label_ne_intermediate _ _ _)
        · exact absurd hlabel (Symbol.label_ne_intermediate _ _ _)
    | @part _ rule dot stop r owner root hv hr howner hroot within =>
        rw [List.mem_singleton.mp hroot] at within
        rcases place_of_under hsound (v', _) hv hshown' hinner.to_reflTransGen with
          hplace' | ⟨rule', dot', less, stop', hlabel, hle, hv', htrees⟩
        · cases hplace' with
          | whole hv' => exact absurd (hv'.eq hv).1 (Symbol.label_ne_intermediate _ _ _)
          | @part _ rule' dot' stop' r' owner' root' hv' hr' howner' hroot' within' =>
              -- The node names the rule and the dot.
              have hlabel := (hv.eq hv').1
              rw [Label.intermediate.injEq] at hlabel
              rcases hlabel with ⟨rfl, rfl⟩
              rw [hr, Option.some.injEq] at hr'
              subst hr'
              exact Or.inr (repeatsPart_of_part hsound hr hv hv' hshown' hshown'' howner howner'
                ⟨root', hroot', within'⟩ within)
        · -- A shorter part of the same body has another label.
          rw [Label.intermediate.injEq] at hlabel
          have hsame := (hv.eq hv').1
          rw [Label.intermediate.injEq] at hsame
          simp only at htrees
          rw [htrees, ← hsame.2, List.take_take, Nat.min_self] at hsize
          exact absurd hsize (Nat.lt_irrefl _)
  · exact absurd hlabel (Symbol.label_ne_intermediate _ _ _)

end Forest

end EarleyForest
