import Mathlib.Logic.Relation
import EarleyForest.Proofs.Enumeration.Assembly

/-!
# Cycles and Repetitions

A forest has a cycle below a node only if some derivation from that node
repeats itself: a nonterminal derives a span by way of deriving the same span.

A cycle cannot consist of parts of rule bodies alone, since each of them has
only shorter parts of the same body below it. So it goes through a nonterminal.
Going around it once more puts a tree of that nonterminal inside another one
with the same span, and going up to the node above puts both into a tree for
that.

## Main definitions

* `Forest.Child`: One node is a child of another.
* `Forest.Clear`: Nothing below a node is on a path, and nothing is below
  itself.
* `Tree.Child`: One tree is right below another.
* `Tree.Repeats`: A nonterminal occurs inside itself over the same span.

## Theorems

* `not_cycle_of_lt`: No cycle is there if every node comes behind its children.
* `nonterminal_of_cycle`: A cycle goes through a nonterminal.
* `shown_above`: Trees for a node are inside trees for the nodes above it.
* `not_cycle_of_not_repeats`: Without repetitions there is no cycle.
-/

namespace EarleyForest

variable {T N Tok : Type}

namespace Tree

/-- The first tree is right below the second. -/
def Child (below above : Tree N Tok) : Prop := below ∈ above.children

/-- Somewhere in the tree a nonterminal occurs inside the same nonterminal over
    the same span. -/
def Repeats (tree : Tree N Tok) : Prop :=
  ∃ outer inner n, Relation.ReflTransGen Child outer tree ∧ Relation.TransGen Child inner outer ∧
    outer.label? = some n ∧ inner.label? = some n ∧ inner.span = outer.span

variable {g : Grammar T N} {input : List T} {tokens : List Tok}

theorem Shows.label?_eq {tree : Tree N Tok} {s : Symbol T N} {i j : Nat}
    (h : tree.Shows g input tokens s i j) : tree.label? = s.nonterminal? := by
  cases h <;> rfl

/-- The trees right below another one show symbols of the body of a rule. -/
theorem Shows.child {below above : Tree N Tok} {s : Symbol T N} {i j : Nat}
    (h : above.Shows g input tokens s i j) (hchild : Child below above) :
    ∃ r ∈ g.rules, s = .nonterminal r.head ∧
      ∃ s' ∈ r.body, ∃ k l, below.Shows g input tokens s' k l := by
  cases h with
  | leaf here carried => exact absurd hchild List.not_mem_nil
  | covert i rule => exact absurd hchild List.not_mem_nil
  | branch rule body parts => exact ⟨_, rule, rfl, parts.shows_of_mem hchild⟩

/-- If nonterminals are ranked so that those in the body of a rule are below
    the head, then the trees inside another one are below it. -/
theorem Shows.rank_lt {rank : N → Nat}
    (hrank : ∀ r ∈ g.rules, ∀ n ∈ r.body.filterMap Symbol.nonterminal?, rank n < rank r.head)
    {below above : Tree N Tok} {s : Symbol T N} {i j : Nat} (h : above.Shows g input tokens s i j)
    (hbelow : Relation.TransGen Child below above) :
    ∃ n s' k l, s = .nonterminal n ∧ below.Shows g input tokens s' k l ∧
      ∀ m, s' = .nonterminal m → rank m < rank n := by
  -- From the outer tree inwards, each step leads into the body of a rule.
  induction hbelow using Relation.TransGen.head_induction_on with
  | single hchild =>
      rcases h.child hchild with ⟨r, hrule, rfl, s', hs', k, l, hshows⟩
      refine ⟨r.head, s', k, l, rfl, hshows, ?_⟩
      rintro m rfl
      exact hrank r hrule m (List.mem_filterMap.mpr ⟨_, hs', rfl⟩)
  | head hchild _ ih =>
      rcases ih with ⟨n, s', k, l, hs, hshows, hless⟩
      rcases hshows.child hchild with ⟨r, hrule, hhead, s'', hs'', k', l', hshows'⟩
      refine ⟨n, s'', k', l', hs, hshows', ?_⟩
      rintro m rfl
      have hm := hrank r hrule m (List.mem_filterMap.mpr ⟨_, hs'', rfl⟩)
      exact Nat.lt_trans hm (hless r.head hhead)

/-- A tree of a grammar whose nonterminals are ranked does not repeat itself. -/
theorem Shows.not_repeats {rank : N → Nat}
    (hrank : ∀ r ∈ g.rules, ∀ n ∈ r.body.filterMap Symbol.nonterminal?, rank n < rank r.head)
    {tree : Tree N Tok} {s : Symbol T N} {i j : Nat} (h : tree.Shows g input tokens s i j) :
    ¬ tree.Repeats := by
  rintro ⟨outer, inner, n, houter, hinner, hlabel, hlabel', _⟩
  -- The outer one of the two trees is the whole tree or inside it.
  have hshows : ∃ s k l, outer.Shows g input tokens s k l := by
    rcases Relation.reflTransGen_iff_eq_or_transGen.mp houter with rfl | houter
    · exact ⟨s, i, j, h⟩
    · rcases h.rank_lt hrank houter with ⟨_, s', k, l, _, hshows, _⟩
      exact ⟨s', k, l, hshows⟩
  rcases hshows with ⟨s', k, l, hshows⟩
  rcases hshows.rank_lt hrank hinner with ⟨m, s'', k', l', rfl, hshows', hless⟩
  have hm : m = n := Option.some.inj (hshows.label?_eq.symm.trans hlabel)
  have hn : s''.nonterminal? = some n := hshows'.label?_eq.symm.trans hlabel'
  cases s'' with
  | terminal t => cases hn
  | nonterminal n' =>
      have hlt := hless n' rfl
      rw [hm, Option.some.inj hn] at hlt
      exact Nat.lt_irrefl _ hlt

end Tree

namespace Forest

/-- The first node is a child of the second. -/
def Child (f : Forest T N) (below above : NodeId) : Prop :=
  ∃ node, f.node? above = some node ∧ below ∈ node.children

/-- A walk below a node meets no node that is on a path, and none that is below
    itself. -/
def Clear (f : Forest T N) (path : List NodeId) (id : NodeId) : Prop :=
  ∀ v, Relation.ReflTransGen f.Child v id → v ∉ path ∧ ¬ Relation.TransGen f.Child v v

variable {g : Grammar T N} {input : List T} {tokens : List Tok} {f : Forest T N}

theorem Clear.not_mem {path : List NodeId} {id : NodeId} (h : f.Clear path id) : id ∉ path :=
  (h id .refl).1

/-- With a node behind the path, the way down to its children is clear. -/
theorem Clear.child {path : List NodeId} {id child : NodeId} (h : f.Clear path id)
    (hchild : f.Child child id) : f.Clear (id :: path) child := by
  intro v hv
  rcases h v (hv.tail hchild) with ⟨hpath, hcycle⟩
  refine ⟨fun hmem => ?_, hcycle⟩
  rcases List.mem_cons.mp hmem with rfl | hmem
  · exact hcycle (Relation.TransGen.tail' hv hchild)
  · exact hpath hmem

theorem child_iff {below above : NodeId} : f.Child below above ↔
    ∃ label span family, f.Lists above label span family ∧ below ∈ family.children := by
  constructor
  · rintro ⟨node, hnode, hbelow⟩
    rcases List.mem_flatMap.mp hbelow with ⟨family, hfamily, hbelow⟩
    exact ⟨_, _, family, ⟨node.families, hnode, hfamily⟩, hbelow⟩
  · rintro ⟨label, span, family, ⟨families, hnode, hfamily⟩, hbelow⟩
    exact ⟨_, hnode, List.mem_flatMap.mpr ⟨family, hfamily, hbelow⟩⟩

/-- If nodes have larger numbers than their children, no node leads back to
    itself. -/
theorem not_cycle_of_lt
    (h : ∀ id < f.size, ∀ node ∈ f.node? id, ∀ child ∈ node.children, child < id) (v : NodeId) :
    ¬ Relation.TransGen f.Child v v := by
  have hchild : ∀ below above, f.Child below above → below < above := by
    rintro below above ⟨node, hnode, hbelow⟩
    exact h above (has_of_node? hnode).lt_size node hnode below hbelow
  intro hcycle
  have hlt := Relation.TransGen.trans_induction_on (motive := fun {a b} _ => a < b) hcycle
    (fun hstep => hchild _ _ hstep) fun _ _ => Nat.lt_trans
  exact Nat.lt_irrefl v hlt

/-- The children of a part of a rule's body are symbols or shorter parts of the
    same body. -/
theorem Sound.child_of_intermediate (h : f.Sound g input) {below above : NodeId}
    {rule dot : Nat} {span : Span} (hchild : f.Child below above)
    (hhas : f.Has above (.intermediate rule dot) span) :
    ∃ label span', f.Has below label span' ∧
      ((∃ s : Symbol T N, label = s.label) ∨ ∃ less < dot, label = .intermediate rule less) := by
  rcases child_iff.mp hchild with ⟨label, span', family, hlists, hbelow⟩
  -- Only a family of two children has a label that names a rule and a dot.
  rcases hlists.has.eq hhas with ⟨rfl, rfl⟩
  cases h.way hlists with
  | @binary rule' dot' i k j before after s left right hbefore hs hafter hleft hright =>
      rcases Grammar.labelAt?_eq_some_iff.mp hafter with ⟨r, hr, s', hs', hlabel⟩
      have hrule : rule' = rule ∧ dot' + 1 = dot := by
        split at hlabel
        · exact absurd hlabel (Symbol.label_ne_intermediate s' rule dot)
        · split at hlabel
          · cases hlabel
          · rwa [Label.intermediate.injEq] at hlabel
      rcases hrule with ⟨rfl, rfl⟩
      rcases List.mem_cons.mp hbelow with rfl | hbelow
      · refine ⟨before, _, hleft, ?_⟩
        cases dot' with
        | zero => rw [Grammar.labelAt?_zero] at hbefore; cases hbefore
        | succ d =>
            rcases Grammar.labelAt?_eq_some_iff.mp hbefore with ⟨r', hr', s'', _, rfl⟩
            split
            · exact Or.inl ⟨s'', rfl⟩
            · split
              · exact Or.inl ⟨.nonterminal r'.head, rfl⟩
              · exact Or.inr ⟨d + 1, Nat.lt_succ_self _, rfl⟩
      · rw [List.mem_singleton.mp hbelow]
        exact ⟨_, _, hright, Or.inl ⟨s, rfl⟩⟩

/-- A leaf has no children. -/
theorem Sound.not_child_of_terminal (h : f.Sound g input) {below above : NodeId} {t : T}
    {span : Span} (hhas : f.Has above (.terminal t) span) : ¬ f.Child below above := by
  rintro ⟨node, hnode, hbelow⟩
  rcases hhas.eq (has_of_node? hnode) with ⟨hlabel, _⟩
  have hnil := (h.bare hnode).mpr ⟨t, hlabel.symm⟩
  rw [Node.children, hnil] at hbelow
  exact absurd hbelow List.not_mem_nil

/-- What is below a part of a rule's body is a shorter part, or a leaf, or at
    or below a nonterminal there. -/
theorem Sound.below_intermediate (h : f.Sound g input) {v w : NodeId} {rule dot : Nat}
    {span : Span} (hhas : f.Has v (.intermediate rule dot) span)
    (hbelow : Relation.TransGen f.Child w v) :
    (∃ u n span, f.Has u (.nonterminal n) span ∧ Relation.ReflTransGen f.Child w u ∧
      Relation.TransGen f.Child u v) ∨
    (∃ less < dot, ∃ span, f.Has w (.intermediate rule less) span) ∨
    ∃ t span, f.Has w (.terminal t) span := by
  -- One step down from a part of the body decides between the three.
  have hstep : ∀ {u x : NodeId} {part : Nat} {span : Span}, part ≤ dot →
      f.Has u (.intermediate rule part) span → f.Child x u → Relation.TransGen f.Child x v →
      (∃ y n span, f.Has y (.nonterminal n) span ∧ Relation.ReflTransGen f.Child x y ∧
        Relation.TransGen f.Child y v) ∨
      (∃ less < dot, ∃ span, f.Has x (.intermediate rule less) span) ∨
      ∃ t span, f.Has x (.terminal t) span := by
    intro u x part span hle hhas hchild hx
    rcases h.child_of_intermediate hchild hhas with
      ⟨label, span', hx', ⟨s, rfl⟩ | ⟨less, hless, rfl⟩⟩
    · cases s with
      | terminal t => exact Or.inr (Or.inr ⟨t, span', hx'⟩)
      | nonterminal n => exact Or.inl ⟨x, n, span', hx', .refl, hx⟩
    · exact Or.inr (Or.inl ⟨less, Nat.lt_of_lt_of_le hless hle, span', hx'⟩)
  induction hbelow using Relation.TransGen.head_induction_on with
  | single hchild => exact hstep (Nat.le_refl _) hhas hchild (.single hchild)
  | @head x u hchild hrest ih =>
      rcases ih with ⟨y, n, span', hy, hle, hlt⟩ | ⟨less, hless, span', hu⟩ | ⟨t, span', hu⟩
      · exact Or.inl ⟨y, n, span', hy, .head hchild hle, hlt⟩
      · exact hstep (Nat.le_of_lt hless) hu hchild (.head hchild hrest)
      · exact absurd hchild (h.not_child_of_terminal hu)

/-- A cycle goes through a nonterminal. -/
theorem Sound.nonterminal_of_cycle (h : f.Sound g input) {v : NodeId}
    (hcycle : Relation.TransGen f.Child v v) :
    ∃ u n span, f.Has u (.nonterminal n) span ∧ Relation.ReflTransGen f.Child u v ∧
      Relation.TransGen f.Child u u := by
  -- The node has a child, so it is no leaf.
  rcases Relation.TransGen.tail'_iff.mp hcycle with ⟨w, _, hchild⟩
  rcases hchild with ⟨node, hnode, hmem⟩
  have hhas := has_of_node? hnode
  cases hlabel : node.label with
  | terminal t =>
      rw [hlabel] at hhas
      exact absurd ⟨node, hnode, hmem⟩ (h.not_child_of_terminal hhas)
  | nonterminal n =>
      rw [hlabel] at hhas
      exact ⟨v, n, _, hhas, .refl, hcycle⟩
  | intermediate rule dot =>
      rw [hlabel] at hhas
      rcases h.below_intermediate hhas hcycle with
        ⟨u, n, span, hu, hle, hlt⟩ | ⟨less, hless, span, hless'⟩ | ⟨t, span, ht⟩
      · exact ⟨u, n, span, hu, hlt.to_reflTransGen, hlt.trans_left hle⟩
      · -- A part of the body would be shorter than itself.
        have heq := (hhas.eq hless').1
        rw [Label.intermediate.injEq] at heq
        omega
      · have heq := (hhas.eq ht).1
        cases heq

/-- Trees for a child are below trees for its node: among them for a part of a
    rule's body, and right below the one tree for anything else. -/
theorem Sound.shown_of_child (h : f.Sound g input) (htokens : input.length ≤ tokens.length)
    {child id : NodeId} {label : Label T N} {span : Span} (hhas : f.Has id label span)
    (hchild : f.Child child id) {trees : List (Tree N Tok)}
    (hshown : f.Shown g input tokens child trees) :
    ∃ above, f.Shown g input tokens id above ∧
      (label.isIntermediate = true ∧ (∀ tree ∈ trees, tree ∈ above) ∨
        ∃ top, above = [top] ∧ ∀ tree ∈ trees, Tree.Child tree top) := by
  rcases child_iff.mp hchild with ⟨label', span', family, hlists, hmem⟩
  rcases hhas.eq hlists.has with ⟨rfl, rfl⟩
  have hway := h.way hlists
  -- The other child, if there is one, has trees of its own.
  have hbelow : family ≠ .epsilon ∧ ∃ below, f.ShownBelow g input tokens family below ∧
      ∀ tree ∈ trees, tree ∈ below := by
    cases family with
    | epsilon => exact absurd hmem List.not_mem_nil
    | unary only =>
        rw [List.mem_singleton.mp hmem] at hshown
        exact ⟨by simp only [ne_eq, reduceCtorEq, not_false_eq_true], trees, hshown, fun _ ht => ht⟩
    | binary left right =>
        refine ⟨by simp only [ne_eq, reduceCtorEq, not_false_eq_true], ?_⟩
        rcases h.child hway List.mem_cons_self with ⟨_, _, hleft, _⟩
        rcases h.child hway (List.mem_cons_of_mem _ (List.mem_singleton_self right)) with
          ⟨_, _, hright, _⟩
        rcases List.mem_cons.mp hmem with rfl | hmem
        · rcases exists_shown h htokens hright with ⟨behind, hbehind⟩
          exact ⟨trees ++ behind, ⟨trees, behind, rfl, hshown, hbehind⟩,
            fun _ ht => List.mem_append_left _ ht⟩
        · rw [List.mem_singleton.mp hmem] at hshown
          rcases exists_shown h htokens hleft with ⟨before, hbefore⟩
          exact ⟨before ++ trees, ⟨before, trees, rfl, hbefore, hshown⟩,
            fun _ ht => List.mem_append_right _ ht⟩
  rcases hbelow with ⟨hepsilon, below, hbelow, hsub⟩
  refine ⟨Enumeration.assemble Builder.tree label span family below,
    ⟨label, span, hhas, Enumeration.showAll_assemble hway hbelow⟩, ?_⟩
  cases label with
  | terminal t => exact absurd hchild (h.not_child_of_terminal hhas)
  | nonterminal n =>
      refine Or.inr ⟨.branch n span below, ?_, hsub⟩
      simp only [Enumeration.assemble, if_neg hepsilon]
      rfl
  | intermediate rule dot => exact Or.inl ⟨rfl, hsub⟩

/-- Trees for a node are inside trees for any node above it. -/
theorem Sound.shown_above (h : f.Sound g input) (htokens : input.length ≤ tokens.length)
    {below id : NodeId} (hbelow : Relation.ReflTransGen f.Child below id)
    {trees : List (Tree N Tok)} (hshown : f.Shown g input tokens below trees) :
    ∃ above, f.Shown g input tokens id above ∧
      ∀ tree ∈ trees, ∃ top ∈ above, Relation.ReflTransGen Tree.Child tree top := by
  -- By induction on the way up, with the trees of each node inside those of the
  -- next.
  induction hbelow with
  | refl => exact ⟨trees, hshown, fun tree htree => ⟨tree, htree, .refl⟩⟩
  | tail _ hchild ih =>
      rcases ih with ⟨middle, hmiddle, hinside⟩
      rcases child_iff.mp hchild with ⟨label, span, _, hlists, _⟩
      rcases h.shown_of_child htokens hlists.has hchild hmiddle with ⟨above, habove, hplace⟩
      refine ⟨above, habove, fun tree htree => ?_⟩
      rcases hinside tree htree with ⟨top, htop, hpath⟩
      rcases hplace with ⟨_, hsame⟩ | ⟨root, rfl, hroot⟩
      · exact ⟨top, hsame top htop, hpath⟩
      · exact ⟨root, List.mem_singleton_self root, hpath.tail (hroot top htop)⟩

/-- If no tree of a nonterminal repeats itself, its node has no cycle below
    it. -/
theorem Sound.not_cycle_of_not_repeats (h : f.Sound g input)
    (htokens : input.length ≤ tokens.length) {root : NodeId} {n : N} {i j : Nat}
    (hroot : f.Has root (.nonterminal n) ⟨i, j⟩)
    (hrepeats : ∀ tree : Tree N Tok, tree.Shows g input tokens (.nonterminal n) i j →
      ¬ tree.Repeats) : f.Clear [] root := by
  intro v hv
  refine ⟨List.not_mem_nil, fun hcycle => ?_⟩
  rcases h.nonterminal_of_cycle hcycle with ⟨u, m, ⟨k, l⟩, hu, huv, hcycle'⟩
  have hu' : f.Has u (Symbol.nonterminal m : Symbol T N).label ⟨k, l⟩ := hu
  -- A tree for the nonterminal, and a second one around it.
  rcases exists_shown h htokens hu with ⟨trees, hshown⟩
  rcases (shown_symbol_iff hu').mp hshown with ⟨inner, rfl, hinner⟩
  rcases Relation.TransGen.tail'_iff.mp hcycle' with ⟨child, hbelow, hchild⟩
  rcases h.shown_above htokens hbelow hshown with ⟨middle, hmiddle, hinside⟩
  rcases hinside inner (List.mem_singleton_self inner) with ⟨part, hpart, hpath⟩
  rcases h.shown_of_child htokens hu hchild hmiddle with
    ⟨above, habove, ⟨hsplit, _⟩ | ⟨outer, rfl, houter⟩⟩
  · cases hsplit
  rcases (shown_symbol_iff hu').mp habove with ⟨_, heq, hshows⟩
  rw [List.singleton_inj] at heq
  rw [← heq] at hshows
  -- A tree for the node above around both.
  rcases h.shown_above htokens (huv.trans hv) habove with ⟨whole, hwhole, hinside'⟩
  have hroot' : f.Has root (Symbol.nonterminal n : Symbol T N).label ⟨i, j⟩ := hroot
  rcases (shown_symbol_iff hroot').mp hwhole with ⟨tree, rfl, htree⟩
  rcases hinside' outer (List.mem_singleton_self outer) with ⟨top, htop', hwithin⟩
  rw [List.mem_singleton.mp htop'] at hwithin
  refine hrepeats tree htree ⟨outer, inner, m, hwithin,
    Relation.TransGen.tail' hpath (houter part hpart), ?_, ?_, ?_⟩
  · exact hshows.label?_eq
  · exact hinner.label?_eq
  · rw [hinner.span_eq, hshows.span_eq]

end Forest

end EarleyForest
