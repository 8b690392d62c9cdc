import EarleyForest.Enumeration.Builder
import EarleyForest.Enumeration.Odometer
import EarleyForest.Forest.Traversal

/-!
# Walking One Derivation

A setting of the odometer leads through the forest along one derivation: from
the root down, left before right, taking at each packed node the family that
the next digit says. Where the setting ends, the walk goes on with the first
family of each packed node and adds the digits for it.

The walk stops short at a node that is on the path above it already. A
derivation through that node would contain itself, and there are infinitely
many of those in a forest with a cycle.

Nodes that stand for a part of a rule's body make nothing of their own. What
was made below them becomes part of what their parent has below it, so that
each branch gets the children that its rule asks for.

## Main definitions

* `Halt`: Why a walk stops short.
* `Trail`: The digits read, those still to be read, and the calls made.
* `walk`: Walks the derivation of one node.

## Theorems

* `reads_walk`: A walk keeps the setting's digits, adds only digits that
  choose among the families of a node, and reads a bounded number.
-/

namespace EarleyForest

/-- Why a walk stops short. -/
inductive Halt where
  /-- The next node is on the path above it. -/
  | cycle
  /-- The forest, the digits or the tokens do not fit together. -/
  | fault
deriving DecidableEq

/-- The state of a walk. -/
structure Trail (T N Tok : Type) where
  /-- The digits read, the latest first. -/
  read : List Digit
  /-- The digits still to be read. -/
  ahead : List Digit
  /-- The builder's calls, the latest first. -/
  calls : List (Call T N Tok)
deriving DecidableEq

/-- A part of a walk. -/
abbrev Walk (T N Tok : Type) := EStateM Halt (Trail T N Tok)

namespace Walk

variable {T N Tok Out : Type}

/-- Reads the next digit, or adds one that takes the first of `count`
    families. -/
def digit (count : Nat) : Walk T N Tok Nat := fun trail =>
  match trail.ahead with
  | [] => .ok 0 { trail with read := ⟨0, count⟩ :: trail.read }
  | digit :: rest => .ok digit.taken { trail with read := digit :: trail.read, ahead := rest }

/-- Picks the family of a node by which the derivation goes on. -/
def choose (families : List Family) : Walk T N Tok Family :=
  match families with
  | [] => throw .fault
  | [only] => pure only
  | families => do
    let taken ← digit families.length
    match families[taken]? with
    | none => throw .fault
    | some family => pure family

/-- Notes a call of the builder. -/
def note (call : Call T N Tok) : Walk T N Tok Unit :=
  modify fun trail => { trail with calls := call :: trail.calls }

/-- Makes a leaf of the token at the start of a span. -/
def leaf (tokens : List Tok) (builder : Builder T N Tok Out) (terminal : T) (span : Span) :
    Walk T N Tok (List Out) :=
  match tokens[span.start]? with
  | none => throw .fault
  | some token => do
    note (.leaf terminal token span)
    pure [builder.leaf terminal token span]

/-- Makes what a node stands for out of what was made below it. -/
def finish (builder : Builder T N Tok Out) (node : Node T N) (family : Family)
    (below : List Out) : Walk T N Tok (List Out) :=
  match node.label, family with
  | .nonterminal n, .epsilon => do
    note (.covert n node.span)
    pure [builder.covert n node.span]
  | .nonterminal n, _ => do
    note (.branch n node.span below.length)
    pure [builder.branch n node.span below]
  | _, _ => pure below

/-- Walks the derivation of a node. `path` holds the nodes above it. -/
def walk (f : Forest T N) (tokens : List Tok) (builder : Builder T N Tok Out)
    (path : List NodeId) (id : NodeId) : Walk T N Tok (List Out) :=
  match _hnode : f.node? id with
  | none => throw .fault
  | some node =>
    match node.label with
    | .terminal t => leaf tokens builder t node.span
    | _ =>
      if _hpath : id ∈ path then throw .cycle
      else do
        let family ← choose node.families
        (match family with
          | .epsilon => pure []
          | .unary child => walk f tokens builder (id :: path) child
          | .binary left right => do
            let before ← walk f tokens builder (id :: path) left
            let behind ← walk f tokens builder (id :: path) right
            pure (before ++ behind)) >>= finish builder node family
termination_by f.unvisited path
decreasing_by all_goals exact Forest.unvisited_cons_lt _hnode _hpath

/-- The trail that a part of a walk leaves behind. -/
def trailAfter {α : Type} : EStateM.Result Halt (Trail T N Tok) α → Trail T N Tok
  | .ok _ trail => trail
  | .error _ trail => trail

/-- A part of a walk that keeps the digits of the setting, adds only digits
    that choose among at most `width` families, and reads at most `most`
    digits. -/
def Reads {α : Type} (width most : Nat) (part : Walk T N Tok α) : Prop :=
  ∀ trail, ∃ added : List Digit,
    (trailAfter (part trail)).read.reverse ++ (trailAfter (part trail)).ahead
      = trail.read.reverse ++ trail.ahead ++ added ∧
    (∀ d ∈ added, d.count ≤ width) ∧
    (trailAfter (part trail)).read.length ≤ trail.read.length + most

theorem reads_of_unread {α : Type} {width most : Nat} {part : Walk T N Tok α}
    (hread : ∀ trail, (trailAfter (part trail)).read = trail.read)
    (hahead : ∀ trail, (trailAfter (part trail)).ahead = trail.ahead) : Reads width most part :=
  fun trail => ⟨[], by rw [hread, hahead, List.append_nil], fun _ hd => absurd hd List.not_mem_nil,
    by rw [hread]; exact Nat.le_add_right _ _⟩

theorem reads_pure {α : Type} (width most : Nat) (a : α) :
    Reads width most (pure a : Walk T N Tok α) :=
  reads_of_unread (fun _ => rfl) fun _ => rfl

theorem reads_throw {α : Type} (width most : Nat) (halt : Halt) :
    Reads width most (throw halt : Walk T N Tok α) :=
  reads_of_unread (fun _ => rfl) fun _ => rfl

theorem reads_note (width most : Nat) (call : Call T N Tok) : Reads width most (note call) :=
  reads_of_unread (fun _ => rfl) fun _ => rfl

theorem Reads.bind {α β : Type} {width first second : Nat} {part : Walk T N Tok α}
    {next : α → Walk T N Tok β} (hpart : Reads width first part)
    (hnext : ∀ a, Reads width second (next a)) : Reads width (first + second) (part >>= next) := by
  intro trail
  rcases hpart trail with ⟨added, hdigits, hcount, hlength⟩
  simp only [Bind.bind, EStateM.bind]
  cases hresult : part trail with
  | error halt behind =>
      -- The second part is not run.
      simp only [hresult, trailAfter] at hdigits hlength ⊢
      exact ⟨added, hdigits, hcount, by omega⟩
  | ok a behind =>
      simp only [hresult, trailAfter] at hdigits hlength ⊢
      rcases hnext a behind with ⟨more, hdigits', hcount', hlength'⟩
      refine ⟨added ++ more, ?_, ?_, ?_⟩
      · rw [← List.append_assoc, ← hdigits]
        exact hdigits'
      · intro d hd
        exact (List.mem_append.mp hd).elim (hcount d) (hcount' d)
      · simp only [trailAfter] at hlength'
        omega

theorem Reads.mono {α : Type} {width least most : Nat} {part : Walk T N Tok α}
    (h : Reads width least part) (hle : least ≤ most) : Reads width most part := by
  intro trail
  rcases h trail with ⟨added, hdigits, hcount, hlength⟩
  exact ⟨added, hdigits, hcount, by omega⟩

theorem reads_digit {width count : Nat} (h : count ≤ width) :
    Reads width 1 (digit count : Walk T N Tok Nat) := by
  intro trail
  cases hahead : trail.ahead with
  | nil =>
      -- The setting is used up: the digit read is the one added.
      refine ⟨[⟨0, count⟩], ?_, ?_, ?_⟩
      · simp only [digit, hahead, trailAfter, List.reverse_cons, List.append_nil]
      · intro d hd
        rw [List.mem_singleton.mp hd]
        exact h
      · simp only [digit, hahead, trailAfter, List.length_cons, Nat.le_refl]
  | cons first rest =>
      -- A digit moves from those ahead to those read.
      refine ⟨[], ?_, fun _ hd => absurd hd List.not_mem_nil, ?_⟩
      · simp only [digit, hahead, trailAfter, List.reverse_cons, List.append_assoc,
          List.singleton_append, List.append_nil]
      · simp only [digit, hahead, trailAfter, List.length_cons, Nat.le_refl]

theorem reads_choose {width : Nat} {families : List Family} (h : families.length ≤ width) :
    Reads width 1 (choose families : Walk T N Tok Family) := by
  match families with
  | [] => exact reads_throw _ _ _
  | [only] => exact reads_pure _ _ _
  | first :: second :: rest =>
      refine (reads_digit h).bind fun taken => (?_ : Reads width 0 _)
      split
      · exact reads_throw _ _ _
      · exact reads_pure _ _ _

theorem reads_leaf (width most : Nat) (tokens : List Tok) (builder : Builder T N Tok Out)
    (t : T) (span : Span) : Reads width most (leaf tokens builder t span) := by
  -- Leaves leave the digits alone.
  refine Reads.mono (?_ : Reads width 0 _) (Nat.zero_le _)
  unfold leaf
  split
  · exact reads_throw _ _ _
  · exact (reads_note _ 0 _).bind fun _ => reads_pure _ 0 _

theorem reads_finish (width most : Nat) (builder : Builder T N Tok Out) (node : Node T N)
    (family : Family) (below : List Out) :
    Reads width most (finish builder node family below) := by
  refine Reads.mono (?_ : Reads width 0 _) (Nat.zero_le _)
  unfold finish
  split
  · exact (reads_note _ 0 _).bind fun _ => reads_pure _ 0 _
  · exact (reads_note _ 0 _).bind fun _ => reads_pure _ 0 _
  · exact reads_pure _ _ _

/-- A walk keeps the setting's digits and adds only digits that choose among
    the families of a node. It reads one digit a node at most, and below each
    node there are two more walks at most, on which one node less is left. -/
theorem reads_walk (f : Forest T N) (tokens : List Tok) (builder : Builder T N Tok Out)
    (path : List NodeId) (id : NodeId) :
    Reads f.familyCount (Nat.pow 2 (f.unvisited path) - 1) (walk f tokens builder path id) := by
  fun_induction walk f tokens builder path id with
  | case1 => exact reads_throw _ _ _
  | case2 => exact reads_leaf _ _ _ _ _ _
  | case3 => exact reads_throw _ _ _
  | case4 path id node hnode hpath _ ih =>
      -- Below this node one node less is left, so two walks there together
      -- read less than the bound of this one leaves room for.
      have hfewer := Forest.unvisited_cons_lt hnode hpath
      have htwice : Nat.pow 2 (f.unvisited (id :: path)) * 2 ≤ Nat.pow 2 (f.unvisited path) :=
        Nat.pow_le_pow_right Nat.two_pos hfewer
      have hone : 1 ≤ Nat.pow 2 (f.unvisited (id :: path)) := Nat.one_le_two_pow
      have hbelow : ∀ family : Family, Reads f.familyCount
          ((Nat.pow 2 (f.unvisited (id :: path)) - 1) +
            ((Nat.pow 2 (f.unvisited (id :: path)) - 1) + 0))
          (match family with
            | .epsilon => pure []
            | .unary child => walk f tokens builder (id :: path) child
            | .binary left right => do
              let before ← walk f tokens builder (id :: path) left
              let behind ← walk f tokens builder (id :: path) right
              pure (before ++ behind)) := fun family => by
        split
        · exact reads_pure _ _ _
        · rename_i child
          exact (ih child).mono (by omega)
        · rename_i before behind
          exact (ih before).bind fun _ => (ih behind).bind fun _ => reads_pure _ _ _
      -- One digit for the choice here, then whatever the children read.
      exact ((reads_choose (Forest.length_families_le hnode)).bind fun family =>
        (hbelow family).bind fun below => reads_finish _ 0 _ _ _ _).mono (by omega)

end Walk

end EarleyForest
