import DemandLex.Proofs.Sequence.Demand
import DemandLex.Proofs.StepFunction.Merge

/-! The rounds of a merge of two sequences that may have no end. Each passes the next edge, of one
sequence or of both: over sequences in key order, a merge that has passed an edge has passed just the
breakpoints up to there, in one round for every distinct edge. -/

namespace DemandLex

variable {ν E T : Type}

/-- The cells whose edge a merge passes at once: one of either sequence, or one of both. -/
inductive Round (ν : Type) where
  | left (x : Cell ν)
  | right (y : Cell ν)
  | both (x y : Cell ν)

namespace Round

def left? : Round ν → Option (Cell ν)
  | left x | both x _ => some x
  | right _ => none

def right? : Round ν → Option (Cell ν)
  | left _ => none
  | right y | both _ y => some y

def cells (x : Round ν) : List (Cell ν) := x.left?.toList ++ x.right?.toList

/-- The edge that is passed; that of the left sequence, where both have it. -/
def edge : Round (Breakpoint E T) → E
  | left x | both x _ => x.value.edge
  | right y => y.value.edge

def leftValue (a : T) (x : Round (Breakpoint E T)) : T := x.left?.elim a fun x => x.value.value

def rightValue (b : T) (x : Round (Breakpoint E T)) : T := x.right?.elim b fun y => y.value.value

end Round

inductive Meaning.Rounds (M : Meaning (Breakpoint E T)) (compare : E → E → Ordering) :
    Sequence (Breakpoint E T) → Sequence (Breakpoint E T) → List (Round (Breakpoint E T)) →
      Sequence (Breakpoint E T) → Sequence (Breakpoint E T) → Prop
  | nil {s t : Sequence (Breakpoint E T)} : Rounds M compare s t [] s t
  | left {x : Cell (Breakpoint E T)} {s t s' t' : Sequence (Breakpoint E T)}
      {rounds : List (Round (Breakpoint E T))}
      (smaller : ∀ y, t = some y → compare x.value.edge y.value.edge = .lt)
      (follows : M.after x.node = some s) (later : Rounds M compare s t rounds s' t') :
      Rounds M compare (some x) t (.left x :: rounds) s' t'
  | right {y : Cell (Breakpoint E T)} {s t s' t' : Sequence (Breakpoint E T)}
      {rounds : List (Round (Breakpoint E T))}
      (larger : ∀ x, s = some x → compare x.value.edge y.value.edge = .gt)
      (follows : M.after y.node = some t) (later : Rounds M compare s t rounds s' t') :
      Rounds M compare s (some y) (.right y :: rounds) s' t'
  | both {x y : Cell (Breakpoint E T)} {s t s' t' : Sequence (Breakpoint E T)}
      {rounds : List (Round (Breakpoint E T))}
      (same : compare x.value.edge y.value.edge = .eq)
      (follows : M.after x.node = some s) (follows' : M.after y.node = some t)
      (later : Rounds M compare s t rounds s' t') :
      Rounds M compare (some x) (some y) (.both x y :: rounds) s' t'

theorem Sequence.next_round (compare : E → E → Ordering) (s t : Sequence (Breakpoint E T)) :
    (∃ x, s = some x ∧ ∀ y, t = some y → compare x.value.edge y.value.edge = .lt) ∨
    (∃ y, t = some y ∧ ∀ x, s = some x → compare x.value.edge y.value.edge = .gt) ∨
    (∃ x y, s = some x ∧ t = some y ∧ compare x.value.edge y.value.edge = .eq) ∨
    (s = none ∧ t = none) := by
  rcases s with _ | x <;> rcases t with _ | y
  · exact Or.inr (Or.inr (Or.inr ⟨rfl, rfl⟩))
  · exact Or.inr (Or.inl ⟨y, rfl, by rintro _ ⟨⟩⟩)
  · exact Or.inl ⟨x, rfl, by rintro _ ⟨⟩⟩
  · cases order : compare x.value.edge y.value.edge with
    | lt => exact Or.inl ⟨x, rfl, by rintro _ ⟨⟩; exact order⟩
    | gt => exact Or.inr (Or.inl ⟨y, rfl, by rintro _ ⟨⟩; exact order⟩)
    | eq => exact Or.inr (Or.inr (Or.inl ⟨x, y, rfl, rfl, order⟩))

namespace StepFunction

def distinctEdges (compare : E → E → Ordering) (xs ys : List (Breakpoint E T)) : Nat :=
  xs.length + (ys.filter fun y => xs.all fun x => compare x.edge y.edge != .eq).length

section Distinct
variable {compare : E → E → Ordering} {x y : Breakpoint E T} {xs ys : List (Breakpoint E T)}

theorem distinctEdges_cons (apart : ∀ y ∈ ys, compare x.edge y.edge ≠ .eq) :
    distinctEdges compare (x :: xs) ys = distinctEdges compare xs ys + 1 := by
  have same : ys.filter (fun y => (x :: xs).all fun x => compare x.edge y.edge != .eq) =
      ys.filter fun y => xs.all fun x => compare x.edge y.edge != .eq :=
    List.filter_congr fun y member => by simp [apart y member]
  rw [distinctEdges, distinctEdges, same, List.length_cons, Nat.add_right_comm]

theorem distinctEdges_cons_right (apart : ∀ x ∈ xs, compare x.edge y.edge ≠ .eq) :
    distinctEdges compare xs (y :: ys) = distinctEdges compare xs ys + 1 := by
  have kept : (xs.all fun x => compare x.edge y.edge != .eq) = true := by simpa using apart
  simp only [distinctEdges, List.filter_cons, kept, if_true, List.length_cons, Nat.add_assoc]

theorem distinctEdges_cons_both (same : compare x.edge y.edge = .eq)
    (apart : ∀ y ∈ ys, compare x.edge y.edge ≠ .eq) :
    distinctEdges compare (x :: xs) (y :: ys) = distinctEdges compare xs ys + 1 := by
  have dropped : ((x :: xs).all fun x => compare x.edge y.edge != .eq) = false := by simp [same]
  rw [← distinctEdges_cons apart]
  simp only [distinctEdges, List.filter_cons, dropped, Bool.false_eq_true, if_false]

theorem length_overlay [Std.TransCmp compare] {f : T → T → T} {a b : T}
    (left : Increasing compare xs) (right : Increasing compare ys) :
    (overlay compare f a b xs ys).length = distinctEdges compare xs ys := by
  fun_induction overlay compare f a b xs ys with
  | case1 => rfl
  | case2 a b x xs ih =>
    rw [List.length_cons, ih (increasing_cons.mp left).2 right, distinctEdges_cons (by simp)]
  | case3 a b y ys ih =>
    rw [List.length_cons, ih left (increasing_cons.mp right).2, distinctEdges_cons_right (by simp)]
  | case4 a b x xs y ys order ih =>
    have before := right.before order
    rw [List.length_cons, ih (increasing_cons.mp left).2 right,
      distinctEdges_cons fun w member => by simp [before w member]]
  | case5 a b x xs y ys order ih =>
    obtain ⟨behind, rest⟩ := increasing_cons.mp right
    have before (w : Breakpoint E T) (member : w ∈ ys) : compare x.edge w.edge = .lt :=
      Std.TransCmp.lt_of_eq_of_lt order (behind w member)
    rw [List.length_cons, ih (increasing_cons.mp left).2 rest,
      distinctEdges_cons_both order fun w member => by simp [before w member]]
  | case6 a b x xs y ys order ih =>
    have before := left.before (Std.OrientedCmp.lt_of_gt order)
    have after (w : Breakpoint E T) (member : w ∈ x :: xs) : compare w.edge y.edge = .gt :=
      Std.OrientedCmp.gt_of_lt (before w member)
    rw [List.length_cons, ih left (increasing_cons.mp right).2,
      distinctEdges_cons_right fun w member => by simp [after w member]]

end Distinct

end StepFunction

def Round.overlaid (reduce : T → T → T) : T → T → List (Round (Breakpoint E T)) →
    List (Breakpoint E T)
  | _, _, [] => []
  | a, b, round :: later =>
    ⟨round.edge, reduce (round.leftValue a) (round.rightValue b)⟩ ::
      overlaid reduce (round.leftValue a) (round.rightValue b) later

theorem Round.length_overlaid {reduce : T → T → T} {a b : T}
    {rounds : List (Round (Breakpoint E T))} :
    (overlaid reduce a b rounds).length = rounds.length := by
  induction rounds generalizing a b with
  | nil => rfl
  | cons round later ih => rw [overlaid, List.length_cons, List.length_cons, ih]

namespace Meaning

def Beyond (M : Meaning (Breakpoint E T)) (compare : E → E → Ordering) (edge : E)
    (s : Sequence (Breakpoint E T)) : Prop :=
  ∀ bs, M.Begins s bs → ∀ b ∈ bs, compare edge b.edge = .lt

def Ordered (M : Meaning (Breakpoint E T)) (compare : E → E → Ordering)
    (s : Sequence (Breakpoint E T)) : Prop :=
  ∀ bs, M.Begins s bs → StepFunction.Increasing compare bs

structure UpTo (M : Meaning (Breakpoint E T)) (compare : E → E → Ordering) (edge : E)
    (s : Sequence (Breakpoint E T)) (cells : List (Cell (Breakpoint E T)))
    (rest : Sequence (Breakpoint E T)) : Prop where
  walks : M.Walks s cells rest
  inside : ∀ x ∈ cells, (compare x.value.edge edge).isLE
  beyond : M.Beyond compare edge rest

/-- A merge passes these cells of two sequences, in rounds of increasing edges, one for every distinct
edge. -/
structure Merges (M : Meaning (Breakpoint E T)) (compare : E → E → Ordering)
    (s t : Sequence (Breakpoint E T)) (xs ys : List (Cell (Breakpoint E T)))
    (rounds : List (Round (Breakpoint E T))) (s' t' : Sequence (Breakpoint E T)) : Prop where
  passes : M.Rounds compare s t rounds s' t'
  lefts : rounds.filterMap Round.left? = xs
  rights : rounds.filterMap Round.right? = ys
  increasing : rounds.Pairwise fun x y => compare x.edge y.edge = .lt
  each : rounds.length =
    StepFunction.distinctEdges compare (xs.map Cell.value) (ys.map Cell.value)

section Order
variable {M : Meaning (Breakpoint E T)} {compare : E → E → Ordering}
  {s t s' t' : Sequence (Breakpoint E T)} {x : Cell (Breakpoint E T)} {edge : E}

theorem Beyond.head (beyond : M.Beyond compare edge (some x)) :
    compare edge x.value.edge = .lt := beyond _ .one _ (List.mem_singleton_self _)

theorem Beyond.next (beyond : M.Beyond compare edge (some x)) (follows : M.after x.node = some s) :
    M.Beyond compare edge s :=
  fun _ begins b member => beyond _ (.cons follows begins) b (List.mem_cons_of_mem _ member)

variable [Std.TransCmp compare]

theorem Beyond.of_eq {edge' : E} (same : compare edge edge' = .eq)
    (beyond : M.Beyond compare edge' s) : M.Beyond compare edge s :=
  fun bs begins b member => Std.TransCmp.lt_of_eq_of_lt same (beyond bs begins b member)

theorem Holds.ordered {bs : List (Breakpoint E T)} (holds : M.Holds s bs)
    (increasing : StepFunction.Increasing compare bs) : M.Ordered compare s := by
  intro cs begins
  have front : cs <+: bs := by
    induction begins generalizing bs with
    | nil => exact List.nil_prefix
    | one =>
      cases holds
      exact List.cons_prefix_cons.mpr ⟨rfl, List.nil_prefix⟩
    | cons follows _ ih =>
      cases holds with
      | cons follows' tail =>
        cases follows.symm.trans follows'
        have rest := increasing.sublist (List.sublist_cons_self _ _)
        exact List.cons_prefix_cons.mpr ⟨rfl, ih tail rest⟩
  exact increasing.sublist front.sublist

theorem Ordered.next (ordered : M.Ordered compare (some x)) (follows : M.after x.node = some s) :
    M.Ordered compare s ∧ M.Beyond compare x.value.edge s := by
  have both (bs : List (Breakpoint E T)) (begins : M.Begins s bs) :=
    StepFunction.increasing_cons.mp (ordered (x.value :: bs) (.cons follows begins))
  exact ⟨fun bs begins => (both bs begins).2, fun bs begins => (both bs begins).1⟩

theorem Ordered.beyond (ordered : M.Ordered compare s)
    (first : ∀ y, s = some y → compare edge y.value.edge = .lt) : M.Beyond compare edge s := by
  intro bs begins
  have increasing := ordered bs begins
  cases begins with
  | nil => rintro b ⟨⟩
  | one | cons => exact increasing.before (first _ rfl)

end Order

section Rounds
variable {M : Meaning (Breakpoint E T)} {compare : E → E → Ordering}
  {s t s' t' s'' t'' : Sequence (Breakpoint E T)} {rounds later : List (Round (Breakpoint E T))}
  {round : Round (Breakpoint E T)} {xs ys : List (Cell (Breakpoint E T))} {edge : E}

theorem Rounds.append (first : M.Rounds compare s t rounds s' t')
    (second : M.Rounds compare s' t' later s'' t'') :
    M.Rounds compare s t (rounds ++ later) s'' t'' := by
  induction first with
  | nil => exact second
  | left smaller follows _ ih => exact .left smaller follows (ih second)
  | right larger follows _ ih => exact .right larger follows (ih second)
  | both same follows follows' _ ih => exact .both same follows follows' (ih second)

theorem Rounds.of_append (all : M.Rounds compare s t (rounds ++ later) s'' t'') :
    ∃ s' t', M.Rounds compare s t rounds s' t' ∧ M.Rounds compare s' t' later s'' t'' := by
  induction rounds generalizing s t with
  | nil => exact ⟨s, t, .nil, all⟩
  | cons round rounds ih =>
    cases all with
    | left smaller follows behind =>
      obtain ⟨s', t', front, back⟩ := ih behind
      exact ⟨s', t', .left smaller follows front, back⟩
    | right larger follows behind =>
      obtain ⟨s', t', front, back⟩ := ih behind
      exact ⟨s', t', .right larger follows front, back⟩
    | both same follows follows' behind =>
      obtain ⟨s', t', front, back⟩ := ih behind
      exact ⟨s', t', .both same follows follows' front, back⟩

theorem Rounds.of_cons (all : M.Rounds compare s t (round :: later) s'' t'') :
    ∃ s' t', M.Rounds compare s t [round] s' t' ∧ M.Rounds compare s' t' later s'' t'' :=
  Rounds.of_append (List.singleton_append ▸ all)

theorem Rounds.walks_left (all : M.Rounds compare s t rounds s' t') :
    M.Walks s (rounds.filterMap Round.left?) s' := by
  induction all with
  | nil => exact .nil
  | left _ follows _ ih | both _ follows _ _ ih => exact .cons follows ih
  | right _ _ _ ih => exact ih

theorem Rounds.walks_right (all : M.Rounds compare s t rounds s' t') :
    M.Walks t (rounds.filterMap Round.right?) t' := by
  induction all with
  | nil => exact .nil
  | right _ follows _ ih | both _ _ follows _ ih => exact .cons follows ih
  | left _ _ _ ih => exact ih

theorem Walks.head {cells : List (Cell (Breakpoint E T))} {P : Breakpoint E T → Prop}
    (walks : M.Walks s cells s') (first : ∀ x, s = some x → P x.value) :
    ∀ b ∈ (cells.map Cell.value).head?, P b := by
  cases walks with
  | nil => rintro _ ⟨⟩
  | cons =>
    rintro _ ⟨⟩
    exact first _ rfl

theorem Rounds.overlay (all : M.Rounds compare s t rounds s' t') {reduce : T → T → T} {a b : T} :
    StepFunction.overlay compare reduce a b ((rounds.filterMap Round.left?).map Cell.value)
        ((rounds.filterMap Round.right?).map Cell.value) = Round.overlaid reduce a b rounds := by
  induction all generalizing a b with
  | nil => exact StepFunction.overlay.eq_1 ..
  | left smaller _ later ih =>
    rw [Round.overlaid, ← ih]
    exact StepFunction.overlay_cons_left (later.walks_right.head smaller)
  | right larger _ later ih =>
    rw [Round.overlaid, ← ih]
    exact StepFunction.overlay_cons_right (later.walks_left.head larger)
  | both same _ _ _ ih =>
    rw [Round.overlaid, ← ih]
    exact StepFunction.overlay_cons_both same

theorem mem_cells_of_left {x : Cell (Breakpoint E T)}
    (member : x ∈ rounds.filterMap Round.left?) : ∃ round ∈ rounds, x ∈ round.cells := by
  obtain ⟨round, inside, found⟩ := List.mem_filterMap.mp member
  exact ⟨round, inside, by simp [Round.cells, found]⟩

theorem mem_cells_of_right {y : Cell (Breakpoint E T)}
    (member : y ∈ rounds.filterMap Round.right?) : ∃ round ∈ rounds, y ∈ round.cells := by
  obtain ⟨round, inside, found⟩ := List.mem_filterMap.mp member
  exact ⟨round, inside, by simp [Round.cells, found]⟩

/-- What comes before both sequences comes before all that a merge passes, and before what is left. -/
theorem Rounds.beyond (all : M.Rounds compare s t rounds s' t') (left : M.Beyond compare edge s)
    (right : M.Beyond compare edge t) :
    (∀ round ∈ rounds, compare edge round.edge = .lt) ∧ M.Beyond compare edge s' ∧
      M.Beyond compare edge t' := by
  induction all with
  | nil => exact ⟨by rintro _ ⟨⟩, left, right⟩
  | left _ follows _ ih =>
    obtain ⟨before, behind⟩ := ih (left.next follows) right
    exact ⟨List.forall_mem_cons.mpr ⟨left.head, before⟩, behind⟩
  | right _ follows _ ih =>
    obtain ⟨before, behind⟩ := ih left (right.next follows)
    exact ⟨List.forall_mem_cons.mpr ⟨right.head, before⟩, behind⟩
  | both _ follows follows' _ ih =>
    obtain ⟨before, behind⟩ := ih (left.next follows) (right.next follows')
    exact ⟨List.forall_mem_cons.mpr ⟨left.head, before⟩, behind⟩

section Lawful
variable [Std.TransCmp compare]

theorem Rounds.one (one : M.Rounds compare s t [round] s' t') (left : M.Ordered compare s)
    (right : M.Ordered compare t) :
    (M.Ordered compare s' ∧ M.Ordered compare t') ∧
      (M.Beyond compare round.edge s' ∧ M.Beyond compare round.edge t') ∧
      ∀ x ∈ round.cells, compare x.value.edge round.edge = .eq := by
  cases one with
  | left smaller follows later =>
    cases later
    obtain ⟨rest, beyond⟩ := left.next follows
    refine ⟨⟨rest, right⟩, ⟨beyond, right.beyond smaller⟩, ?_⟩
    simp [Round.cells, Round.left?, Round.right?, Round.edge, Std.ReflCmp.compare_self]
  | right larger follows later =>
    cases later
    obtain ⟨rest, beyond⟩ := right.next follows
    refine ⟨⟨left, rest⟩, ⟨left.beyond fun x there => ?_, beyond⟩, ?_⟩
    · exact Std.OrientedCmp.lt_of_gt (larger x there)
    · simp [Round.cells, Round.left?, Round.right?, Round.edge, Std.ReflCmp.compare_self]
  | both same follows follows' later =>
    cases later
    obtain ⟨rest, beyond⟩ := left.next follows
    obtain ⟨rest', beyond'⟩ := right.next follows'
    refine ⟨⟨rest, rest'⟩, ⟨beyond, beyond'.of_eq same⟩, ?_⟩
    simp [Round.cells, Round.left?, Round.right?, Round.edge, Std.ReflCmp.compare_self,
      Std.OrientedCmp.eq_symm same]

theorem Rounds.increasing (all : M.Rounds compare s t rounds s' t') (left : M.Ordered compare s)
    (right : M.Ordered compare t) : rounds.Pairwise fun x y => compare x.edge y.edge = .lt := by
  induction rounds generalizing s t with
  | nil => exact .nil
  | cons round rounds ih =>
    obtain ⟨s₁, t₁, first, later⟩ := all.of_cons
    obtain ⟨⟨left', right'⟩, ⟨beyond, beyond'⟩, -⟩ := first.one left right
    exact .cons (later.beyond beyond beyond').1 (ih later left' right')

/-- The last round of some passes its edge: nothing up to there is left, and nothing behind it has been
passed. -/
theorem Rounds.last (all : M.Rounds compare s t (rounds ++ [round]) s' t')
    (left : M.Ordered compare s) (right : M.Ordered compare t) :
    (∀ passed ∈ rounds ++ [round], ∀ x ∈ passed.cells,
        (compare x.value.edge round.edge).isLE) ∧
      M.Beyond compare round.edge s' ∧ M.Beyond compare round.edge t' := by
  induction rounds generalizing s t with
  | nil =>
    obtain ⟨-, beyond, here⟩ := all.one left right
    refine ⟨?_, beyond⟩
    rw [List.nil_append]
    intro passed member x inside
    cases List.mem_singleton.mp member
    rw [here x inside]
    rfl
  | cons first rounds ih =>
    obtain ⟨s₁, t₁, front, later⟩ := all.of_cons
    obtain ⟨⟨left', right'⟩, ⟨beyond, beyond'⟩, here⟩ := front.one left right
    obtain ⟨inside, behind⟩ := ih later left' right'
    have before : compare first.edge round.edge = .lt :=
      (later.beyond beyond beyond').1 round (by simp)
    refine ⟨List.forall_mem_cons.mpr ⟨fun x member => ?_, inside⟩, behind⟩
    rw [Std.TransCmp.lt_of_eq_of_lt (here x member) before]
    rfl

theorem Rounds.upTo (all : M.Rounds compare s t (rounds ++ [round]) s' t')
    (left : M.Ordered compare s) (right : M.Ordered compare t) :
    M.UpTo compare round.edge s ((rounds ++ [round]).filterMap Round.left?) s' ∧
      M.UpTo compare round.edge t ((rounds ++ [round]).filterMap Round.right?) t' := by
  obtain ⟨inside, beyond, beyond'⟩ := all.last left right
  constructor
  · refine ⟨all.walks_left, fun x member => ?_, beyond⟩
    obtain ⟨passed, member, there⟩ := mem_cells_of_left member
    exact inside passed member x there
  · refine ⟨all.walks_right, fun y member => ?_, beyond'⟩
    obtain ⟨passed, member, there⟩ := mem_cells_of_right member
    exact inside passed member y there

theorem Rounds.merges (all : M.Rounds compare s t rounds s' t') (left : M.Ordered compare s)
    (right : M.Ordered compare t) (value : T) :
    M.Merges compare s t (rounds.filterMap Round.left?) (rounds.filterMap Round.right?) rounds
      s' t' where
  passes := all
  lefts := rfl
  rights := rfl
  increasing := all.increasing left right
  each := by
    rw [← StepFunction.length_overlay (f := fun _ new => new) (a := value) (b := value)
      (left _ all.walks_left.begins) (right _ all.walks_right.begins), all.overlay,
      Round.length_overlaid]

end Lawful

theorem rounds_of_walks (left : M.Walks s xs s') (right : M.Walks t ys t')
    (lefts : ∀ x ∈ xs, ∀ y, t' = some y → compare x.value.edge y.value.edge = .lt)
    (rights : ∀ y ∈ ys, ∀ x, s' = some x → compare x.value.edge y.value.edge = .gt) :
    ∃ rounds, M.Rounds compare s t rounds s' t' ∧ rounds.filterMap Round.left? = xs ∧
      rounds.filterMap Round.right? = ys := by
  generalize size : xs.length + ys.length = length
  induction length using Nat.strongRecOn generalizing s t xs ys with
  | ind length ih =>
    cases size
    cases left with
    | nil =>
      cases right with
      | nil => exact ⟨[], .nil, rfl, rfl⟩
      | @cons y rest _ ys follows' tail' =>
        obtain ⟨rounds, all, same, rfl⟩ := ih _ (by simp) .nil tail' lefts
          (fun w member => rights w (List.mem_cons_of_mem _ member)) rfl
        exact ⟨.right y :: rounds, .right (rights y List.mem_cons_self) follows' all, same, rfl⟩
    | @cons x rest _ xs follows tail =>
      have lefts' : ∀ w ∈ xs, ∀ y, t' = some y → compare w.value.edge y.value.edge = .lt :=
        fun w member => lefts w (List.mem_cons_of_mem _ member)
      cases right with
      | nil =>
        obtain ⟨rounds, all, rfl, same⟩ := ih _ (by simp) tail .nil lefts' rights rfl
        exact ⟨.left x :: rounds, .left (lefts x List.mem_cons_self) follows all, rfl, same⟩
      | @cons y rest' _ ys follows' tail' =>
        have rights' : ∀ w ∈ ys, ∀ x, s' = some x → compare x.value.edge w.value.edge = .gt :=
          fun w member => rights w (List.mem_cons_of_mem _ member)
        cases order : compare x.value.edge y.value.edge with
        | lt =>
          obtain ⟨rounds, all, rfl, same⟩ :=
            ih _ (by simp) tail (.cons follows' tail') lefts' rights rfl
          exact ⟨.left x :: rounds, .left (by rintro _ ⟨⟩; exact order) follows all, rfl, same⟩
        | gt =>
          obtain ⟨rounds, all, same, rfl⟩ :=
            ih _ (by simp) (.cons follows tail) tail' lefts rights' rfl
          exact ⟨.right y :: rounds, .right (by rintro _ ⟨⟩; exact order) follows' all, same, rfl⟩
        | eq =>
          obtain ⟨rounds, all, rfl, rfl⟩ :=
            ih _ (by simp; omega) tail tail' lefts' rights' rfl
          exact ⟨.both x y :: rounds, .both order follows follows' all, rfl, rfl⟩

theorem UpTo.passes [Std.TransCmp compare] (left : M.UpTo compare edge s xs s')
    (right : M.UpTo compare edge t ys t') :
    ∃ rounds, M.Rounds compare s t rounds s' t' ∧ rounds.filterMap Round.left? = xs ∧
      rounds.filterMap Round.right? = ys := by
  refine rounds_of_walks left.walks right.walks ?_ ?_
  · rintro x member y rfl
    exact Std.TransCmp.lt_of_isLE_of_lt (left.inside x member) right.beyond.head
  · rintro y member x rfl
    exact Std.OrientedCmp.gt_of_lt
      (Std.TransCmp.lt_of_isLE_of_lt (right.inside y member) left.beyond.head)

end Rounds

end Meaning

end DemandLex
