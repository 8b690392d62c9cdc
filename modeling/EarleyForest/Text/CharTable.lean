/-!
# Tables of Characters

A property of characters, given by the code point ranges that have it.

## Main definitions

* `CharTable`: Ranges of code points, both ends included.
* `CharTable.covers`: A character lies in one of the ranges.
-/

namespace EarleyForest

/-- Ranges of code points, each given by its first and its last one. -/
abbrev CharTable := List (Nat × Nat)

namespace CharTable

/-- A character lies in one of the ranges. -/
def covers (table : CharTable) (c : Char) : Bool :=
  table.any fun (first, last) => decide (first ≤ c.toNat) && decide (c.toNat ≤ last)

theorem covers_eq_true_iff {table : CharTable} {c : Char} :
    table.covers c = true ↔ ∃ range ∈ table, range.1 ≤ c.toNat ∧ c.toNat ≤ range.2 := by
  simp only [covers, List.any_eq_true, Bool.and_eq_true, decide_eq_true_eq]

end CharTable

end EarleyForest
