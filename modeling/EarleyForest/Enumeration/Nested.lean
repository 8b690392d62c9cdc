import EarleyForest.Enumeration.Builder
import EarleyForest.Forest.Traversal

/-!
# All Derivations at Once

The derivations below a node as a list, without an odometer: for each family
of the node, for each derivation of the left child, for each derivation of
the right child. A node that is on the path above it already has none. This
is the order in which an enumeration gives them one at a time.

## Main definitions

* `assemble`: What a derivation of a node makes, given what it makes below.
* `nested`: All derivations below a node.
-/

namespace EarleyForest

namespace Enumeration

variable {T N Tok Out : Type}

/-- What a derivation makes of a node: one thing for a nonterminal, and what
    it made below for a part of a rule's body. -/
def assemble (builder : Builder T N Tok Out) (label : Label T N) (span : Span)
    (family : Family) (below : List Out) : List Out :=
  match label with
  | .nonterminal n =>
    if family = .epsilon then [builder.covert n span] else [builder.branch n span below]
  | _ => below

/-- All derivations below a node, each as the list of what it makes. `path`
    holds the nodes above it. -/
def nested (f : Forest T N) (tokens : List Tok) (builder : Builder T N Tok Out)
    (path : List NodeId) (id : NodeId) : List (List Out) :=
  match _hnode : f.node? id with
  | none => []
  | some node =>
    match node.label with
    | .terminal t =>
      tokens[node.span.start]?.toList.map fun token => [builder.leaf t token node.span]
    | label =>
      if _hpath : id ∈ path then []
      else node.families.flatMap fun family =>
        (match family with
          | .epsilon => [[]]
          | .unary child => nested f tokens builder (id :: path) child
          | .binary left right =>
            (nested f tokens builder (id :: path) left).flatMap fun before =>
              (nested f tokens builder (id :: path) right).map (before ++ ·)).map
          (assemble builder label node.span family)
termination_by f.unvisited path
decreasing_by all_goals exact Forest.unvisited_cons_lt _hnode _hpath

end Enumeration

end EarleyForest
