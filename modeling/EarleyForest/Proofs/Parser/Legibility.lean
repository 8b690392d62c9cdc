import EarleyForest.Proofs.Parser.Reordered
import EarleyForest.Proofs.Parser.Rooted
import EarleyForest.Proofs.Tree.Legibility

/-!
# Telling Trees by Their Text

To know how many derivations an input has it is enough to count the texts of
the trees that an enumeration gives. The text of a tree tells everything but
the spans, and trees that come from one root start at the same position, so
that their spans are settled too.

This takes no more than that symbols are told from each other by their
spelling, that nonterminals are spelled like names or integers, and that tokens
hold no quotation marks.

## Theorems

* `numeral_injective`: Integers are told by their numerals.
* `text_injective`: Trees are told by their text.
-/

namespace EarleyForest

variable {T N Tok Out : Type}

/-- Symbols that stand for themselves are told from each other. -/
theorem Spelling.plain_distinct : Spelling.plain.Distinct :=
  ⟨Function.injective_id, Function.injective_id⟩

/-- The numerals of integers tell them from each other. -/
theorem numeral_injective : Function.Injective Int.repr := by
  have hnat : ∀ m n : Nat, m.repr = n.repr → m = n := by
    intro m n h
    have hdigits : Nat.toDigits 10 m = Nat.toDigits 10 n := String.ofList_injective h
    rw [← Nat.ofDigitChars_ten_toDigits (n := m), hdigits, Nat.ofDigitChars_ten_toDigits]
  -- No digit is a minus.
  have hsign : ∀ m n : Nat, m.repr ≠ "-" ++ n.repr := by
    intro m n h
    have hminus : '-' ∈ Nat.toDigits 10 m := by
      have hchars := congrArg String.toList h
      rw [Nat.repr, String.toList_ofList, String.toList_append] at hchars
      rw [hchars]
      exact List.mem_cons_self
    exact absurd (Nat.isDigit_of_mem_toDigits (by decide) (by decide) hminus) (by decide)
  intro m n h
  simp only [Int.repr_eq_if] at h
  split at h <;> split at h
  · have hpositive := hnat _ _ h
    omega
  · exact absurd h (hsign _ _)
  · exact absurd h.symm (hsign _ _)
  · have hnegative := hnat _ _ ((String.append_right_inj _).mp h)
    omega

/-- Letters and the numerals of numbers are told from each other. -/
theorem Spelling.letters_distinct :
    (⟨String.singleton, Nat.repr⟩ : Spelling Char Nat).Distinct where
  terminal c d h := by
    have hchars := congrArg String.toList h
    rw [String.toList_singleton, String.toList_singleton] at hchars
    exact (List.cons.inj hchars).1
  nonterminal m n h := Int.ofNat.inj (numeral_injective h)

/-- Two trees with the same text have the same shape, labels and tokens, and
    differ in their spans at most. If they come from the same root of the same
    parse, with the same tokens, they are the same tree. -/
theorem text_injective [DecidableEq T] [DecidableEq N] (spelling : Spelling Tok N)
    (hspelling : spelling.Distinct) :
    (∀ tree tree' : Tree N Tok, tree.Legible spelling → tree'.Legible spelling →
      tree.text spelling = tree'.text spelling → tree.bare = tree'.bare) ∧
    ∀ (p : Parser T N) (input : List T) (root : Option NodeId) (tokens : List Tok)
      (e : Enumeration T N Tok (Tree N Tok)),
      Enumeration.ofRoot (p.parse input).forest root tokens Builder.tree = .ok e →
      ∀ first second tree tree', e.given? first = some tree → e.given? second = some tree' →
        tree.Legible spelling → tree'.Legible spelling →
        tree.text spelling = tree'.text spelling → tree = tree' := by
  have hbare : ∀ tree tree' : Tree N Tok, tree.Legible spelling → tree'.Legible spelling →
      tree.text spelling = tree'.text spelling → tree.bare = tree'.bare := by
    intro tree tree' htree htree' htext
    refine (Tree.eq_of_text_append hspelling tree tree' htree htree' [] [] ?_).1
    rw [htext]
  refine ⟨hbare, ?_⟩
  intro p input root tokens e he first second tree tree' hgiven hgiven' htree htree' htext
  have hsound := (p.grammar.parse_exact input).sound
  cases root with
  | none =>
      -- Without a root nothing is given.
      cases he
      rw [Enumeration.given?_of_upcoming rfl] at hgiven
      cases hgiven
  | some id =>
      rcases Enumeration.ofRoot_eq_ok_iff.mp he with ⟨_, node, hnode, hlabel, htokens⟩
      rcases Forest.has_symbol_of_node? hnode hlabel with ⟨s, _, hhas⟩
      rcases Enumeration.yields_nested hsound (Forest.has_of_node? hnode) hlabel htokens
        Builder.tree with ⟨e', he', hyields⟩
      cases he.symm.trans he'
      -- Both show what the root says, from where it starts.
      have hshows := (Enumeration.shows_of_given? hsound hhas hyields hgiven).2
      have hshows' := (Enumeration.shows_of_given? hsound hhas hyields hgiven').2
      exact hshows.eq_of_bare hshows' (hbare tree tree' htree htree' htext)

/-- A constituent that stands elsewhere is written in the same way. The two
    trees of an ambiguous word are not. -/
theorem forked_text_injective :
    (Tree.branch "S" ⟨0, 1⟩ [.leaf "a b" ⟨0, 1⟩, .covert "_1" 1]).text Spelling.plain =
      (Tree.branch "S" ⟨4, 9⟩ [.leaf "a b" ⟨4, 9⟩, .covert "_1" 9]).text Spelling.plain ∧
    (Tree.branch "S" ⟨0, 1⟩ [.leaf "a b" ⟨0, 1⟩, .covert "_1" 1]).bare =
      (Tree.branch "S" ⟨4, 9⟩ [.leaf "a b" ⟨4, 9⟩, .covert "_1" 9]).bare ∧
    ∃ (e : Enumeration Char Nat Char (Tree Nat Char)) (tree tree' : Tree Nat Char),
      Enumeration.ofRoot (Parser.forked.parse ['a']).forest (some 3) ['a'] Builder.tree = .ok e ∧
      e.given? 0 = some tree ∧ e.given? 1 = some tree' ∧
      tree.text ⟨String.singleton, Nat.repr⟩ ≠ tree'.text ⟨String.singleton, Nat.repr⟩ := by
  have htext : (Tree.branch "S" ⟨0, 1⟩ [.leaf "a b" ⟨0, 1⟩, .covert "_1" 1]).text Spelling.plain =
      (Tree.branch "S" ⟨4, 9⟩ [.leaf "a b" ⟨4, 9⟩, .covert "_1" 9]).text Spelling.plain := rfl
  have htoken : '"' ∉ "a b".toList := by decide
  have hlegible : ∀ i j, (Tree.branch "S" ⟨i, j⟩
      [.leaf "a b" ⟨i, j⟩, .covert "_1" j]).Legible Spelling.plain := fun i j =>
    ⟨Or.inl ⟨'S', [], rfl, rfl, List.forall_mem_nil _⟩, htoken,
      Or.inl ⟨'_', ['1'], rfl, rfl, List.forall_mem_singleton.mpr rfl⟩, trivial⟩
  refine ⟨htext, (text_injective (T := Char) Spelling.plain Spelling.plain_distinct).1 _ _
    (hlegible 0 1) (hlegible 4 9) htext, ?_⟩
  have hone : (Parser.forked.parse ['a']).forest.node? 1 =
      some ⟨.nonterminal 1, ⟨0, 1⟩, [.unary 0]⟩ := by decide
  have htwo : (Parser.forked.parse ['a']).forest.node? 2 =
      some ⟨.nonterminal 2, ⟨0, 1⟩, [.unary 0]⟩ := by decide
  have hleaf : (Parser.forked.parse ['a']).forest.node? 0 =
      some ⟨.terminal 'a', ⟨0, 1⟩, []⟩ := by decide
  have hinner : ∀ n t, (Label.nonterminal n : Label Char Nat) ≠ .terminal t :=
    fun n t h => by cases h
  have hsound : (Parser.forked.parse ['a']).forest.Sound Parser.forked.grammar ['a'] :=
    (Parser.forked.grammar.parse_exact ['a']).sound
  rcases Enumeration.yields_nested hsound (Forest.has_of_node? Parser.forked_node_three) rfl
    (show 1 ≤ ['a'].length from Nat.le_refl 1) Builder.tree with ⟨e, he, hyields⟩
  -- The families of the root give a tree each, one over either nonterminal.
  rw [Enumeration.nested_inner Parser.forked_node_three (hinner 0) List.not_mem_nil] at hyields
  simp only [List.flatMap_cons, List.flatMap_nil, Enumeration.nestedBelow,
    Enumeration.nested_inner hone (hinner 1) (show 1 ∉ [3] by decide),
    Enumeration.nested_inner htwo (hinner 2) (show 2 ∉ [3] by decide),
    Enumeration.nested_leaf hleaf rfl] at hyields
  have hgiven := Enumeration.given?_of_yields hyields
  have hlegible' : ∀ n : Nat, (Tree.branch 0 ⟨0, 1⟩ [.branch n ⟨0, 1⟩ [.leaf 'a' ⟨0, 1⟩]]).Legible
      ⟨String.singleton, Nat.repr⟩ := fun n =>
    ⟨Or.inr ⟨0, rfl⟩, ⟨Or.inr ⟨n, rfl⟩, show '"' ∉ ['a'] by decide, trivial⟩, trivial⟩
  refine ⟨e, _, _, he, hgiven 0, hgiven 1, fun htext' => ?_⟩
  have heq := (text_injective _ Spelling.letters_distinct).2 Parser.forked ['a'] (some 3) ['a'] e he
    0 1 _ _ (hgiven 0) (hgiven 1) (hlegible' 1) (hlegible' 2) htext'
  exact absurd heq (by decide)

end EarleyForest
