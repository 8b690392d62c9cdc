import EarleyForest.Grammar.Spelling
import EarleyForest.Tree.Traversal

/-!
# Writing Trees

A tree is written on one line: a leaf as its token in quotation marks, an
empty constituent as its label before `(∅)`, and a branch as its label before
its children in parentheses, with a space between two of them. The text that
a tree covers is its tokens with a space between two of them.

## Main definitions

* `sentence`: Tokens as the text that they make up.
* `Tree.text`: A tree on one line.
* `Tree.source`: The text that a tree covers.
-/

namespace EarleyForest

/-- Tokens as the text that they make up. -/
def sentence (tokens : List String) : String := " ".intercalate tokens

namespace Tree

variable {N Tok : Type}

mutual

/-- A tree on one line. -/
def text (spelling : Spelling Tok N) : Tree N Tok → String
  | leaf token _ => "\"" ++ spelling.terminal token ++ "\""
  | covert label _ => spelling.nonterminal label ++ "(∅)"
  | branch label _ children =>
    spelling.nonterminal label ++ "(" ++ " ".intercalate (textAll spelling children) ++ ")"

/-- Several trees, each as a text of its own. -/
def textAll (spelling : Spelling Tok N) : List (Tree N Tok) → List String
  | [] => []
  | tree :: rest => tree.text spelling :: textAll spelling rest

end

/-- The text that a tree covers. -/
def source (spell : Tok → String) (tree : Tree N Tok) : String :=
  sentence (tree.leaves.map spell)

end Tree

end EarleyForest
