import Mathlib.Data.List.Basic
import EarleyForest.Proofs.Bnf.Printing
import EarleyForest.Proofs.Tree.Showing
import EarleyForest.Tree.Printer

/-!
# Trees That Can Be Told from Their Text

The text of a tree says where it ends. A leaf ends with the second quotation
mark, and all else with the parenthesis that closes the one behind its label,
if labels hold no parentheses and tokens no quotation marks. So two texts that
are the same as far as both go are the texts of the same tree, and what stands
behind them is the same as well.

Spans are not written. Trees side by side show them nevertheless: a leaf covers
one position, an empty constituent none, and a branch what its children cover.
Only where the first of them starts has to be known.

## Main definitions

* `IsWord`: A text is a name or an integer.
* `Spelling.Distinct`: Symbols are told from each other by their spelling.
* `Tree.Legible`: A tree is written with words and unquoted tokens.
* `Tree.bare`: A tree without its spans.

## Theorems

* `eq_of_text_append`: The text of a tree tells the tree and where it ends.
* `Shows.eq_of_bare`: Trees from one position on are told by what is bare.
-/

namespace EarleyForest

variable {T N Tok : Type}

/-- A text is spelled like a name, or like an integer. -/
def IsWord (text : String) : Prop := IsName text ∨ ∃ z : Int, text = z.repr

/-- Different symbols are spelled differently. -/
structure Spelling.Distinct (spelling : Spelling T N) : Prop where
  terminal : Function.Injective spelling.terminal
  nonterminal : Function.Injective spelling.nonterminal

/-- A character of a word is a letter, a digit, an underscore or a minus. -/
theorem IsWord.chars {text : String} (h : IsWord text) {c : Char} (hc : c ∈ text.toList) :
    Bnf.isNameRest c = true ∨ c = '-' := by
  rcases h with ⟨first, rest, htext, hfirst, hrest⟩ | ⟨z, rfl⟩
  · rw [htext] at hc
    rcases List.mem_cons.mp hc with rfl | hc
    · exact Or.inl (by rw [Bnf.isNameRest, hfirst, Bool.true_or])
    · exact Or.inl (hrest c hc)
  · have hdigit : ∀ n : Nat, c ∈ n.repr.toList → Bnf.isNameRest c = true := by
      intro n hn
      rw [Nat.repr, String.toList_ofList] at hn
      rw [Bnf.isNameRest, Nat.isDigit_of_mem_toDigits (by decide) (by decide) hn, Bool.or_true]
    rw [Int.repr_eq_if] at hc
    split at hc
    · exact Or.inl (hdigit _ hc)
    · rw [String.toList_append] at hc
      rcases List.mem_append.mp hc with hc | hc
      · exact Or.inr (List.mem_singleton.mp hc)
      · exact Or.inl (hdigit _ hc)

/-- The marks in the text of a tree are not part of a word. -/
theorem IsWord.not_mem {text : String} (h : IsWord text) {c : Char}
    (hc : Bnf.isNameRest c = false) (hminus : c ≠ '-') : c ∉ text.toList := by
  intro hmem
  rcases h.chars hmem with hrest | heq
  · rw [hc] at hrest
    cases hrest
  · exact hminus heq

/-- A word is not empty. -/
theorem IsWord.toList_ne_nil {text : String} (h : IsWord text) : text.toList ≠ [] := by
  rcases h with ⟨first, rest, htext, _⟩ | ⟨z, rfl⟩
  · rw [htext]
    exact List.cons_ne_nil _ _
  · have hpos : ∀ n : Nat, n.repr.toList ≠ [] := by
      intro n
      rw [Nat.repr, String.toList_ofList]
      exact Nat.toDigits_ne_nil
    rw [Int.repr_eq_if]
    split
    · exact hpos _
    · rw [String.toList_append]
      exact List.append_ne_nil_of_right_ne_nil _ (hpos _)

/-- A text is cut at the first of some marks in one way only. -/
theorem eq_of_append_mark {mark : Char} {front front' behind behind' : List Char}
    (hfront : mark ∉ front) (hfront' : mark ∉ front')
    (h : front ++ mark :: behind = front' ++ mark :: behind') :
    front = front' ∧ behind = behind' := by
  have hspan (text rest : List Char) (hmark : mark ∉ text) :
      (text ++ mark :: rest).takeWhile (· ≠ mark) = text ∧
        (text ++ mark :: rest).dropWhile (· ≠ mark) = mark :: rest := by
    refine Bnf.span_append (fun c hc => ?_) fun c hc => ?_
    · exact decide_eq_true fun heq => hmark (heq ▸ hc)
    · rw [← Option.some.inj hc]
      exact decide_eq_false fun hne => hne rfl
  have hsplit := hspan front behind hfront
  rw [h, (hspan front' behind' hfront').1, (hspan front' behind' hfront').2] at hsplit
  exact ⟨hsplit.1.symm, (List.cons.inj hsplit.2).2.symm⟩

namespace Tree

mutual

/-- The labels of a tree are words, and its tokens hold no quotation marks. -/
def Legible (spelling : Spelling Tok N) : Tree N Tok → Prop
  | leaf token _ => '"' ∉ (spelling.terminal token).toList
  | covert label _ => IsWord (spelling.nonterminal label)
  | branch label _ children => IsWord (spelling.nonterminal label) ∧ LegibleAll spelling children

/-- The labels of several trees are words, and their tokens hold no quotation
    marks. -/
def LegibleAll (spelling : Spelling Tok N) : List (Tree N Tok) → Prop
  | [] => True
  | tree :: rest => tree.Legible spelling ∧ LegibleAll spelling rest

end

mutual

/-- A tree without its spans: all of them are moved to the same place. -/
def bare : Tree N Tok → Tree N Tok
  | leaf token _ => leaf token ⟨0, 0⟩
  | covert label _ => covert label 0
  | branch label _ children => branch label ⟨0, 0⟩ (bareAll children)

/-- Several trees without their spans. -/
def bareAll : List (Tree N Tok) → List (Tree N Tok)
  | [] => []
  | tree :: rest => tree.bare :: bareAll rest

end

variable {spelling : Spelling Tok N}

/-- Trees side by side as they are written behind another one, each with the
    space before it. -/
def behindChars (spelling : Spelling Tok N) : List (Tree N Tok) → List Char
  | [] => []
  | tree :: rest => ' ' :: ((tree.text spelling).toList ++ behindChars spelling rest)

/-- What is written in the parentheses of a tree. The first child has no space
    before it. -/
def insideChars (spelling : Spelling Tok N) : Tree N Tok → List Char
  | leaf _ _ => []
  | covert _ _ => ['∅']
  | branch _ _ children => (behindChars spelling children).tail

theorem toList_intercalate_textAll (trees : List (Tree N Tok)) :
    (" ".intercalate (textAll spelling trees)).toList = (behindChars spelling trees).tail := by
  induction trees with
  | nil => rfl
  | cons tree rest ih =>
      rw [behindChars, List.tail_cons]
      cases rest with
      | nil => simp only [textAll, String.intercalate_singleton, behindChars, List.append_nil]
      | cons next rest =>
          rw [textAll] at ih ⊢
          rw [textAll, String.intercalate_cons_cons, String.toList_append, String.toList_append,
            ih, behindChars, List.tail_cons, List.append_assoc]
          rfl

/-- The text of a leaf ends with its second quotation mark. -/
theorem toList_text_leaf (token : Tok) (span : Span) (behind : List Char) :
    ((leaf token span : Tree N Tok).text spelling).toList ++ behind =
      '"' :: ((spelling.terminal token).toList ++ '"' :: behind) := by
  simp only [text, String.toList_append, List.append_assoc]
  rfl

/-- The text of another tree is its label and what is in the parentheses. -/
theorem toList_text_inner {tree : Tree N Tok} {n : N} (h : tree.label? = some n)
    (behind : List Char) : (tree.text spelling).toList ++ behind =
      (spelling.nonterminal n).toList ++ '(' :: (tree.insideChars spelling ++ ')' :: behind) := by
  cases tree with
  | leaf token span => cases h
  | covert label position =>
      cases h
      simp only [text, String.toList_append, List.append_assoc]
      rfl
  | branch label span children =>
      cases h
      simp only [text, String.toList_append, toList_intercalate_textAll, List.append_assoc]
      rfl

theorem Legible.isWord {tree : Tree N Tok} (h : tree.Legible spelling) {n : N}
    (hn : tree.label? = some n) : IsWord (spelling.nonterminal n) := by
  cases tree with
  | leaf token span => cases hn
  | covert label position =>
      cases hn
      exact h
  | branch label span children =>
      cases hn
      exact h.1

/-- A leaf begins with a quotation mark, and every other tree with a character
    of its label. -/
theorem Legible.exists_toList_text_eq {tree : Tree N Tok} (h : tree.Legible spelling) :
    ∃ c rest, (tree.text spelling).toList = c :: rest ∧
      (c = '"' ∧ tree.label? = none ∨
        tree.label? ≠ none ∧ (Bnf.isNameRest c = true ∨ c = '-')) := by
  have happend := List.append_nil (tree.text spelling).toList
  cases hlabel : tree.label? with
  | none =>
      cases tree with
      | leaf token span =>
          rw [toList_text_leaf] at happend
          exact ⟨'"', _, happend.symm, Or.inl ⟨rfl, rfl⟩⟩
      | covert label position => cases hlabel
      | branch label span children => cases hlabel
  | some n =>
      have hword := h.isWord hlabel
      rcases List.exists_cons_of_ne_nil hword.toList_ne_nil with ⟨c, rest, hcons⟩
      rw [toList_text_inner hlabel, hcons] at happend
      refine ⟨c, _, happend.symm, Or.inr ⟨Option.some_ne_none n, hword.chars ?_⟩⟩
      rw [hcons]
      exact List.mem_cons_self

/-- What is in the parentheses tells trees without children from others. -/
theorem LegibleAll.head?_tail_behindChars {tree : Tree N Tok} {rest : List (Tree N Tok)}
    (h : LegibleAll spelling (tree :: rest)) (behind : List Char) :
    ((behindChars spelling (tree :: rest)).tail ++ behind).head? ≠ some ')' ∧
    ((behindChars spelling (tree :: rest)).tail ++ behind).head? ≠ some '∅' := by
  rcases h.1.exists_toList_text_eq with ⟨c, chars, hchars, hc⟩
  have hother : ∀ mark : Char, mark ≠ '"' → Bnf.isNameRest mark = false → mark ≠ '-' →
      c ≠ mark := by
    rintro mark hquote hname hminus rfl
    rcases hc with ⟨hc, _⟩ | ⟨_, hc | hc⟩
    · exact hquote hc
    · rw [hname] at hc
      cases hc
    · exact hminus hc
  rw [behindChars, List.tail_cons, hchars, List.cons_append, List.cons_append, List.head?_cons]
  refine ⟨fun heq => ?_, fun heq => ?_⟩
  · exact hother ')' (by decide) (by decide) (by decide) (Option.some.inj heq)
  · exact hother '∅' (by decide) (by decide) (by decide) (Option.some.inj heq)

/-- A text that begins like that of a leaf is the text of one with the same
    token. -/
theorem leaf_of_text_append (hspelling : spelling.Distinct) {token : Tok} {span : Span}
    {tree : Tree N Tok} (htoken : '"' ∉ (spelling.terminal token).toList)
    (htree : tree.Legible spelling) {behind behind' : List Char}
    (h : ((leaf token span : Tree N Tok).text spelling).toList ++ behind =
      (tree.text spelling).toList ++ behind') :
    (∃ span', tree = leaf token span') ∧ behind = behind' := by
  rw [toList_text_leaf] at h
  cases tree with
  | leaf token' span' =>
      rw [toList_text_leaf] at h
      rcases eq_of_append_mark htoken htree (List.cons.inj h).2 with ⟨htokens, hbehind⟩
      rw [hspelling.terminal (String.toList_inj.mp htokens)]
      exact ⟨⟨span', rfl⟩, hbehind⟩
  | _ =>
      -- No word begins with a quotation mark.
      rcases htree.exists_toList_text_eq with ⟨c, rest, hcons, ⟨_, hlabel⟩ | ⟨_, hc⟩⟩
      · cases hlabel
      · rw [hcons, List.cons_append, List.cons.injEq] at h
        rw [← h.1] at hc
        rcases hc with hc | hc <;> cases hc

/-- A text that begins like that of another tree is the text of one with the
    same label, and the rest differs only behind the parenthesis. -/
theorem inner_of_text_append (hspelling : spelling.Distinct) {tree tree' : Tree N Tok} {n : N}
    (hn : tree.label? = some n) (htree : tree.Legible spelling) (htree' : tree'.Legible spelling)
    {behind behind' : List Char} (h : (tree.text spelling).toList ++ behind =
      (tree'.text spelling).toList ++ behind') :
    tree'.label? = some n ∧
      tree.insideChars spelling ++ ')' :: behind =
        tree'.insideChars spelling ++ ')' :: behind' := by
  cases hn' : tree'.label? with
  | none =>
      cases tree' with
      | leaf token span =>
          rcases leaf_of_text_append hspelling htree' htree h.symm with ⟨⟨span', rfl⟩, _⟩
          cases hn
      | covert label position => cases hn'
      | branch label span children => cases hn'
  | some n' =>
      -- The label ends with the first parenthesis.
      have hparenthesis {text : String} (hword : IsWord text) : '(' ∉ text.toList :=
        hword.not_mem (by decide) (by decide)
      rw [toList_text_inner hn, toList_text_inner hn'] at h
      rcases eq_of_append_mark (hparenthesis (htree.isWord hn)) (hparenthesis (htree'.isWord hn'))
        h with ⟨hlabel, hinside⟩
      rw [hspelling.nonterminal (String.toList_inj.mp hlabel)]
      exact ⟨rfl, hinside⟩

mutual

/-- The text of a tree tells the tree, but for its spans, and where the text
    ends. -/
theorem eq_of_text_append (hspelling : spelling.Distinct) :
    (tree tree' : Tree N Tok) → tree.Legible spelling → tree'.Legible spelling →
      (behind behind' : List Char) →
      (tree.text spelling).toList ++ behind = (tree'.text spelling).toList ++ behind' →
      tree.bare = tree'.bare ∧ behind = behind'
  | leaf token span, tree', htree, htree', behind, behind', h => by
      rcases leaf_of_text_append hspelling htree htree' h with ⟨⟨span', rfl⟩, hbehind⟩
      exact ⟨rfl, hbehind⟩
  | covert label position, tree', htree, htree', behind, behind', h => by
      rcases inner_of_text_append hspelling rfl htree htree' h with ⟨hlabel, hinside⟩
      cases tree' with
      | leaf token span => cases hlabel
      | covert label' position' =>
          cases hlabel
          exact ⟨rfl, (List.cons.inj (List.cons.inj hinside).2).2⟩
      | branch label' span children =>
          cases children with
          | nil => cases hinside
          | cons first rest =>
              have hhead := congrArg List.head? hinside
              exact absurd hhead.symm (htree'.2.head?_tail_behindChars _).2
  | branch label span children, tree', htree, htree', behind, behind', h => by
      rcases inner_of_text_append hspelling rfl htree htree' h with ⟨hlabel, hinside⟩
      cases tree' with
      | leaf token span => cases hlabel
      | covert label' position =>
          cases children with
          | nil => cases hinside
          | cons first rest =>
              have hhead := congrArg List.head? hinside
              exact absurd hhead (htree.2.head?_tail_behindChars _).2
      | branch label' span' children' =>
          cases hlabel
          -- Both have children or neither has, so the space that the first
          -- child lacks can be put before it in both.
          have hspaced : behindChars spelling children ++ ')' :: behind =
              behindChars spelling children' ++ ')' :: behind' := by
            cases children with
            | nil =>
                cases children' with
                | nil => exact hinside
                | cons first rest =>
                    have hhead := congrArg List.head? hinside
                    exact absurd hhead.symm (htree'.2.head?_tail_behindChars _).1
            | cons first rest =>
                cases children' with
                | nil =>
                    have hhead := congrArg List.head? hinside
                    exact absurd hhead (htree.2.head?_tail_behindChars _).1
                | cons first' rest' => exact congrArg (' ' :: ·) hinside
          have hall := eq_of_behindChars_append hspelling children children' htree.2 htree'.2 _ _
            hspaced
          rw [bare, bare, hall.1]
          exact ⟨rfl, hall.2⟩

/-- Trees side by side are told by what is written up to the next closing
    parenthesis. -/
theorem eq_of_behindChars_append (hspelling : spelling.Distinct) :
    (trees trees' : List (Tree N Tok)) → LegibleAll spelling trees → LegibleAll spelling trees' →
      (behind behind' : List Char) →
      behindChars spelling trees ++ ')' :: behind = behindChars spelling trees' ++ ')' :: behind' →
      bareAll trees = bareAll trees' ∧ behind = behind'
  | [], [], _, _, behind, behind', h => ⟨rfl, (List.cons.inj h).2⟩
  | [], _ :: _, _, _, behind, behind', h => by cases h
  | _ :: _, [], _, _, behind, behind', h => by cases h
  | tree :: rest, tree' :: rest', htrees, htrees', behind, behind', h => by
      rw [behindChars, behindChars, List.cons_append, List.cons_append, List.cons.injEq,
        List.append_assoc, List.append_assoc] at h
      have hfirst := eq_of_text_append hspelling tree tree' htrees.1 htrees'.1 _ _ h.2
      have hrest := eq_of_behindChars_append hspelling rest rest' htrees.2 htrees'.2 _ _ hfirst.2
      rw [bareAll, bareAll, hfirst.1, hrest.1]
      exact ⟨rfl, hrest.2⟩

end

variable {g : Grammar T N} {input : List T} {tokens : List Tok}

mutual

/-- A derivation from a position on is told by its tree without the spans. -/
theorem Shows.eq_of_bare {tree tree' : Tree N Tok} {s s' : Symbol T N} {i j j' : Nat} :
    tree.Shows g input tokens s i j → tree'.Shows g input tokens s' i j' →
      tree.bare = tree'.bare → tree = tree'
  | .leaf here carried, h', hbare => by
      cases h' with
      | leaf here' carried' =>
          -- The token is the one in the position, so it need not be compared.
          rw [Option.some.inj (carried.symm.trans carried')]
      | covert i rule => cases hbare
      | branch rule body parts => cases hbare
  | .covert i rule, h', hbare => by
      cases h' with
      | leaf here carried => cases hbare
      | covert i rule' =>
          rw [(covert.inj hbare).1]
      | branch rule body parts => cases hbare
  | .branch rule body parts, h', hbare => by
      cases h' with
      | leaf here carried => cases hbare
      | covert i rule' => cases hbare
      | branch rule' body' parts' =>
          rcases branch.inj hbare with ⟨hlabel, _, hchildren⟩
          have heq := parts.eq_of_bareAll parts' hchildren
          subst heq
          rw [hlabel, parts.stop_eq parts']

/-- Trees side by side from a position on are told without their spans. -/
theorem ShowAll.eq_of_bareAll {trees trees' : List (Tree N Tok)}
    {symbols symbols' : List (Symbol T N)} {i j j' : Nat} :
    ShowAll g input tokens trees symbols i j → ShowAll g input tokens trees' symbols' i j' →
      bareAll trees = bareAll trees' → trees = trees'
  | .nil i, h', hbare => by
      cases h' with
      | nil i => rfl
      | cons first behind => cases hbare
  | .cons first behind, h', hbare => by
      cases h' with
      | nil i => cases hbare
      | cons first' behind' =>
          rcases List.cons.inj hbare with ⟨htree, hrest⟩
          have heq := first.eq_of_bare first' htree
          subst heq
          -- The others start where the first one stops.
          have hspan := first.span_eq.symm.trans first'.span_eq
          rw [Span.mk.injEq] at hspan
          rw [← hspan.2] at behind'
          rw [behind.eq_of_bareAll behind' hrest]

end

end Tree

end EarleyForest
