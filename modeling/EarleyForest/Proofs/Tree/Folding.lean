import EarleyForest.Enumeration.Builder
import EarleyForest.Tree.Traversal

/-!
# What Builders Make of a Tree

A builder is told of a derivation piece by piece, from the leaves upwards. So
whatever it makes of one can be made of the derivation tree afterwards: the
leaves are made again out of the terminals and the tokens in their places, and
the branches out of what was made of their children. The calls for it are one
for each subtree, those for the children of a branch from left to right and
before that for the branch.

## Main definitions

* `Tree.fold?`: What a builder makes of a tree.
* `Tree.postorder`: The subtrees, each after those below it.
* `Tree.call?`: The call for a tree, once what is below it has been made.
* `Tree.Made`: What has been made of some trees, and by which calls.

## Theorems

* `postorder_perm`: Each subtree has one place in the postorder.
* `Made.append`, `made_leaf`, `made_covert`, `Made.branch`: How more is made.
-/

namespace EarleyForest

namespace Tree

variable {T N Tok Tok' Out : Type}

section

variable (input : List T) (tokens : List Tok) (builder : Builder T N Tok Out)

mutual

/-- What a builder makes of a tree over an input, with other tokens in the
    places of its own. There is nothing if the input or the tokens do not reach
    as far as the leaves. -/
def fold? : Tree N Tok' → Option Out
  | leaf _ span =>
    input[span.start]?.bind fun t => tokens[span.start]?.map fun token =>
      builder.leaf t token ⟨span.start, span.start + 1⟩
  | covert label position => some (builder.covert label ⟨position, position⟩)
  | branch label span children => (foldAll? children).map (builder.branch label span)

/-- What a builder makes of several trees. -/
def foldAll? : List (Tree N Tok') → Option (List Out)
  | [] => some []
  | tree :: rest => (fold? tree).bind fun out => (foldAll? rest).map (out :: ·)

end

end

mutual

/-- All subtrees from left to right, each after those below it. -/
def postorder : Tree N Tok → List (Tree N Tok)
  | leaf token span => [leaf token span]
  | covert label position => [covert label position]
  | branch label span children => postorderAll children ++ [branch label span children]

/-- The subtrees of several trees. -/
def postorderAll : List (Tree N Tok) → List (Tree N Tok)
  | [] => []
  | tree :: rest => tree.postorder ++ postorderAll rest

end

/-- The call for a tree, once what is below it has been made. -/
def call? (input : List T) (tokens : List Tok) : Tree N Tok' → Option (Call T N Tok)
  | leaf _ span =>
    input[span.start]?.bind fun t => tokens[span.start]?.map fun token =>
      .leaf t token ⟨span.start, span.start + 1⟩
  | covert label position => some (.covert label ⟨position, position⟩)
  | branch label span children => some (.branch label span children.length)

theorem postorder_eq_children (tree : Tree N Tok) :
    tree.postorder = postorderAll tree.children ++ [tree] := by
  cases tree <;> rw [postorder] <;> rfl

theorem postorderAll_append (trees rest : List (Tree N Tok)) :
    postorderAll (trees ++ rest) = postorderAll trees ++ postorderAll rest := by
  induction trees with
  | nil => rfl
  | cons tree trees ih => rw [List.cons_append, postorderAll, postorderAll, ih, List.append_assoc]

theorem postorderAll_perm (pending : List (Tree N Tok)) :
    (postorderAll pending).Perm (subtreesFrom pending) := by
  fun_induction subtreesFrom pending with
  | case1 => exact .refl _
  | case2 tree pending ih =>
      -- Only the tree itself changes its place with those below it.
      rw [postorderAll, postorder_eq_children, List.append_assoc, List.singleton_append]
      rw [postorderAll_append] at ih
      exact List.perm_middle.trans (ih.cons tree)

/-- Each subtree has one place in the postorder. -/
theorem postorder_perm (tree : Tree N Tok) : tree.postorder.Perm tree.subtrees := by
  have hperm := postorderAll_perm [tree]
  rwa [postorderAll, postorderAll, List.append_nil] at hperm

variable {input : List T} {tokens : List Tok} {builder : Builder T N Tok Out}

theorem length_of_foldAll? {trees : List (Tree N Tok')} {outs : List Out}
    (h : foldAll? input tokens builder trees = some outs) : trees.length = outs.length := by
  induction trees generalizing outs with
  | nil =>
      rw [foldAll?, Option.some.injEq] at h
      rw [← h]
      rfl
  | cons tree rest ih =>
      rw [foldAll?, Option.bind_eq_some_iff] at h
      rcases h with ⟨out, _, h⟩
      rcases Option.map_eq_some_iff.mp h with ⟨outs', houts, rfl⟩
      rw [List.length_cons, List.length_cons, ih houts]

theorem foldAll?_append {trees trees' : List (Tree N Tok')} {outs outs' : List Out}
    (h : foldAll? input tokens builder trees = some outs)
    (h' : foldAll? input tokens builder trees' = some outs') :
    foldAll? input tokens builder (trees ++ trees') = some (outs ++ outs') := by
  induction trees generalizing outs with
  | nil =>
      rw [foldAll?, Option.some.injEq] at h
      rw [← h]
      exact h'
  | cons tree rest ih =>
      rw [foldAll?, Option.bind_eq_some_iff] at h
      rcases h with ⟨out, hout, h⟩
      rcases Option.map_eq_some_iff.mp h with ⟨later, hlater, rfl⟩
      rw [List.cons_append, foldAll?, hout, Option.bind_some, ih hlater]
      rfl

/-- What a builder has made of some trees, and the calls by which it has. -/
structure Made (input : List T) (tokens : List Tok) (builder : Builder T N Tok Out)
    (trees : List (Tree N Tok')) (outs : List Out) (calls : List (Call T N Tok)) : Prop where
  fold : foldAll? input tokens builder trees = some outs
  calls : (postorderAll trees).map (call? input tokens) = calls.map some

theorem made_nil : Made input tokens builder ([] : List (Tree N Tok')) [] [] := ⟨rfl, rfl⟩

/-- What is made of trees side by side. -/
theorem Made.append {trees trees' : List (Tree N Tok')} {outs outs' : List Out}
    {calls calls' : List (Call T N Tok)} (h : Made input tokens builder trees outs calls)
    (h' : Made input tokens builder trees' outs' calls') :
    Made input tokens builder (trees ++ trees') (outs ++ outs') (calls ++ calls') where
  fold := foldAll?_append h.fold h'.fold
  calls := by rw [postorderAll_append, List.map_append, h.calls, h'.calls, List.map_append]

/-- What is made of a leaf. -/
theorem made_leaf {p : Nat} {t : T} {token : Tok} (token' : Tok') (ht : input[p]? = some t)
    (htoken : tokens[p]? = some token) :
    Made input tokens builder [leaf token' ⟨p, p + 1⟩] [builder.leaf t token ⟨p, p + 1⟩]
      [.leaf t token ⟨p, p + 1⟩] where
  fold := by
    simp only [foldAll?, fold?, ht, htoken, Option.bind_some, Option.map_some]
  calls := by
    simp only [postorderAll, postorder, List.append_nil, List.map_cons, List.map_nil, call?, ht,
      htoken, Option.bind_some, Option.map_some]

/-- What is made of an empty constituent. -/
theorem made_covert (n : N) (p : Nat) :
    Made input tokens builder [(covert n p : Tree N Tok')] [builder.covert n ⟨p, p⟩]
      [.covert n ⟨p, p⟩] := ⟨rfl, rfl⟩

/-- What is made of a branch, when something has been made of its children. -/
theorem Made.branch {trees : List (Tree N Tok')} {outs : List Out} {calls : List (Call T N Tok)}
    (h : Made input tokens builder trees outs calls) (n : N) (span : Span) :
    Made input tokens builder [Tree.branch n span trees] [builder.branch n span outs]
      (calls ++ [.branch n span outs.length]) where
  fold := by
    simp only [foldAll?, fold?, h.fold, Option.map_some, Option.bind_some]
  calls := by
    simp only [postorderAll, postorder, List.append_nil, List.map_append, h.calls, List.map_cons,
      List.map_nil, call?, length_of_foldAll? h.fold]

/-- What is made of one tree. -/
theorem Made.single {tree : Tree N Tok'} {out : Out} {calls : List (Call T N Tok)}
    (h : Made input tokens builder [tree] [out] calls) :
    tree.fold? input tokens builder = some out ∧
      tree.postorder.map (call? input tokens) = calls.map some := by
  have hfold := h.fold
  have hcalls := h.calls
  rw [postorderAll, postorderAll, List.append_nil] at hcalls
  rw [foldAll?, Option.bind_eq_some_iff] at hfold
  rcases hfold with ⟨out', hout, hrest⟩
  rw [foldAll?, Option.map_some, Option.some.injEq, List.cons.injEq] at hrest
  rw [← hrest.1]
  exact ⟨hout, hcalls⟩

end Tree

end EarleyForest
