import DemandLex.Proofs.Sequence.Pulling
import DemandLex.Proofs.Sequence.Rooted

/-! Comparing sequences that may have no end. A comparison that stops at a shared node answers what one
would answer that goes on to a difference or to the ends: a node has one handle, so that both sequences
are one from there on. -/

namespace DemandLex

variable {ω ν : Type} {M : Meaning ν} {same : ν → ν → Bool}

namespace Listing

variable {l r : Listing ν} {a b : ν}

/-- The known elements match one by one, and both listings end with them or neither does. -/
def Matches (same : ν → ν → Bool) (l r : Listing ν) : Prop :=
  List.Forall₂ (fun a b => same a b = true) l.known r.known ∧ l.complete = r.complete

theorem matches_cons :
    (cons a l).Matches same (cons b r) ↔ same a b = true ∧ l.Matches same r := by
  simp only [Matches, cons, List.forall₂_cons, and_assoc]

theorem matches_refl (reflexive : ∀ value, same value value = true) : l.Matches same l :=
  ⟨List.forall₂_same.mpr fun value _ => reflexive value, rfl⟩

end Listing

namespace Sequence

def Differ (same : ν → ν → Bool) : Sequence ν → Sequence ν → Prop
  | none, none => False
  | some a, some b => same a.value b.value = false
  | _, _ => True

/-- Compares element by element up to a difference or to the ends, whatever the nodes are. -/
def equalThroughout (same : ν → ν → Bool) (s t : Sequence ν) : Lazy ω ν Bool :=
  Lazy.iterate (fun (s, t) =>
    match s, t with
    | none, none => pure (.inr true)
    | some left, some right =>
      if !same left.value right.value then pure (.inr false)
      else do
        let s ← rest (some left)
        let t ← rest (some right)
        pure (.inl (s, t))
    | _, _ => pure (.inr false)) (s, t)

end Sequence

namespace Meaning

open Sequence

variable {s s' t t' : Sequence ν} {a b : Cell ν} {xs ys : List (Cell ν)} {values values' : List ν}

/-- At every place both sequences have matching elements, or both have ended, or both do not get
there. -/
def SameElements (M : Meaning ν) (same : ν → ν → Bool) (s t : Sequence ν) : Prop :=
  ∀ n, (M.shown n s).Matches same (M.shown n t)

section SameElements

theorem sameElements_refl (reflexive : ∀ value, same value value = true) :
    M.SameElements same s s := fun _ => Listing.matches_refl reflexive

theorem sameElements_nil : M.SameElements same none none := by
  rintro (_ | n)
  · exact ⟨.nil, rfl⟩
  · exact ⟨.nil, rfl⟩

theorem not_sameElements_of_differ (apart : s.Differ same t) : ¬M.SameElements same s t := by
  intro alike
  obtain ⟨first, -⟩ := alike 1
  rcases s with _ | a <;> rcases t with _ | b
  · exact apart
  · cases first
  · cases first
  · obtain ⟨matched, -⟩ := List.forall₂_cons.mp first
    cases apart.symm.trans matched

theorem sameElements_cons (follows : M.after a.node = some s) (follows' : M.after b.node = some t) :
    M.SameElements same (some a) (some b) ↔
      same a.value b.value = true ∧ M.SameElements same s t := by
  have shown (n : Nat) : (M.shown (n + 1) (some a)).Matches same (M.shown (n + 1) (some b)) ↔
      same a.value b.value = true ∧ (M.shown n s).Matches same (M.shown n t) := by
    rw [Meaning.shown, Meaning.shown, follows, follows', Listing.matches_cons]
    rfl
  constructor
  · intro alike
    exact ⟨((shown 0).mp (alike 1)).1, fun n => ((shown n).mp (alike (n + 1))).2⟩
  · rintro ⟨first, alike⟩ (_ | n)
    · exact ⟨.nil, rfl⟩
    · exact (shown n).mpr ⟨first, alike n⟩

theorem sameElements_holds (left : M.Holds s values) (right : M.Holds t values') :
    M.SameElements same s t ↔ List.Forall₂ (fun a b => same a b = true) values values' := by
  induction left generalizing t values' with
  | nil =>
    cases right with
    | nil => exact iff_of_true sameElements_nil .nil
    | cons => exact iff_of_false (not_sameElements_of_differ trivial) (by rintro ⟨⟩)
  | cons follows tail ih =>
    cases right with
    | nil => exact iff_of_false (not_sameElements_of_differ trivial) (by rintro ⟨⟩)
    | cons follows' tail' =>
      rw [sameElements_cons follows follows', List.forall₂_cons, ih tail']

theorem sameElements_passed (left : M.Walks s xs s') (right : M.Walks t ys t')
    (level : List.Forall₂ (fun a b => verdict same (some a) (some b) = none) xs ys) :
    M.SameElements same s t ↔ M.SameElements same s' t' := by
  induction level generalizing s t with
  | nil =>
    cases left
    cases right
    rfl
  | @cons a b xs ys pass level ih =>
    cases left with
    | cons follows left =>
      cases right with
      | cons follows' right =>
        have matched : same a.value b.value = true := by
          simp only [verdict] at pass
          split_ifs at pass with one matched
          exact matched
        rw [sameElements_cons follows follows', ih left right, and_iff_right matched]

end SameElements

/-- Both sequences end, or they differ at some place, or they come to one node at the same place, from
which on they may have no end. -/
inductive Comparable (M : Meaning ν) (same : ν → ν → Bool) (s t : Sequence ν) : Prop
  | finite {values values' : List ν} (left : M.Holds s values) (right : M.Holds t values')
  | differ {xs ys : List (Cell ν)} {s' t' : Sequence ν} (left : M.Walks s xs s')
      (right : M.Walks t ys t') (level : xs.length = ys.length) (apart : s'.Differ same t')
  | shared {xs ys : List (Cell ν)} {a b : Cell ν} (left : M.Walks s xs (some a))
      (right : M.Walks t ys (some b)) (level : xs.length = ys.length) (one : a.node = b.node)

/-- A comparison finds these elements equal, at different nodes, and can tell the answer from where the
sequences go on. -/
def Decides (M : Meaning ν) (same : ν → ν → Bool) (s t : Sequence ν) (xs ys : List (Cell ν))
    (answer : Bool) : Prop :=
  ∃ s' t', M.Walks s xs s' ∧ M.Walks t ys t' ∧
    List.Forall₂ (fun a b => verdict same (some a) (some b) = none) xs ys ∧
    verdict same s' t' = some answer

section Decides

theorem decides_cons (follows : M.after a.node = some s) (follows' : M.after b.node = some t)
    (behind : ∃ xs ys answer, M.Decides same s t xs ys answer) :
    ∃ xs ys answer, M.Decides same (some a) (some b) xs ys answer := by
  cases stop : verdict same (some a) (some b) with
  | some answer => exact ⟨[], [], answer, _, _, .nil, .nil, .nil, stop⟩
  | none =>
    obtain ⟨xs, ys, answer, s', t', left, right, level, stop'⟩ := behind
    exact ⟨a :: xs, b :: ys, answer, s', t', .cons follows left, .cons follows' right,
      .cons stop level, stop'⟩

theorem decides_of_walks {answer : Bool} (left : M.Walks s xs s') (right : M.Walks t ys t')
    (level : xs.length = ys.length) (stop : verdict same s' t' = some answer) :
    ∃ xs ys answer, M.Decides same s t xs ys answer := by
  induction left generalizing t ys with
  | nil =>
    cases right with
    | nil => exact ⟨[], [], answer, _, _, .nil, .nil, .nil, stop⟩
    | cons => cases level
  | cons follows left ih =>
    cases right with
    | nil => cases level
    | cons follows' right =>
      exact decides_cons follows follows' (ih right (Nat.succ.inj level) stop)

theorem decides_of_holds (left : M.Holds s values) (right : M.Holds t values') :
    ∃ xs ys answer, M.Decides same s t xs ys answer := by
  induction left generalizing t values' with
  | nil => cases t <;> exact ⟨[], [], _, _, _, .nil, .nil, .nil, rfl⟩
  | cons follows left ih =>
    cases right with
    | nil => exact ⟨[], [], _, _, _, .nil, .nil, .nil, rfl⟩
    | cons follows' right => exact decides_cons follows follows' (ih right)

theorem exists_verdict_of_differ (apart : s.Differ same t) :
    ∃ answer, verdict same s t = some answer := by
  rcases s with _ | a <;> rcases t with _ | b
  case some.some =>
    have different : same a.value b.value = false := apart
    simp only [verdict, different, Bool.false_eq_true, if_false]
    split_ifs <;> exact ⟨_, rfl⟩
  all_goals exact ⟨_, rfl⟩

theorem Comparable.decides (comparable : M.Comparable same s t) :
    ∃ xs ys answer, M.Decides same s t xs ys answer := by
  cases comparable with
  | finite left right => exact decides_of_holds left right
  | differ left right level apart =>
    obtain ⟨answer, stop⟩ := exists_verdict_of_differ apart
    exact decides_of_walks left right level stop
  | shared left right level one => exact decides_of_walks left right level (if_pos one)

end Decides

section Store
variable {store : Store ω ν}

theorem Walks.stands (walks : M.Walks s xs t) (ready : store.Ready M) (rooted : store.Rooted)
    (stands : s.Stands store) : ∃ store' : Store ω ν, store'.Ready M ∧ t.Stands store' := by
  induction walks generalizing store with
  | nil => exact ⟨store, ready, stands⟩
  | @cons cell q t cells follows tail ih =>
    obtain ⟨store₁, enough, found⟩ :=
      Store.rest_settles (ready.asking stands.has) follows
    have looked : rest (some cell) enough store = some (q, store₁) := found enough le_rfl
    obtain ⟨leaves, -, -⟩ := after_of_rest ready stands.has looked
    obtain ⟨-, rooted₁, stands₁⟩ := roots_rest rooted enough q store₁ looked
    exact ih leaves.ready rooted₁ stands₁

variable (ready : store.Ready M) (rooted : store.Rooted) (stands : s.Stands store)
  (stands' : t.Stands store)
include ready rooted stands stands'

theorem Walks.one_cell (left : M.Walks s xs (some a)) (right : M.Walks t ys (some b))
    (one : a.node = b.node) : a = b := by
  obtain ⟨store₁, ready₁, stands₁⟩ := left.stands ready rooted stands
  obtain ⟨store₂, ready₂, stands₂⟩ := right.stands ready rooted stands'
  have meant := stands₂.meant ready₂
  rw [← one, stands₁.meant ready₁, Option.some_inj, Option.some_inj] at meant
  exact meant

theorem Decides.sameElements {answer : Bool} (reflexive : ∀ value, same value value = true)
    (decides : M.Decides same s t xs ys answer) :
    answer = true ↔ M.SameElements same s t := by
  obtain ⟨s', t', left, right, level, stop⟩ := decides
  rw [sameElements_passed left right level]
  rcases s' with _ | a <;> rcases t' with _ | b
  · cases stop
    exact iff_of_true rfl sameElements_nil
  · cases stop
    exact iff_of_false Bool.false_ne_true (not_sameElements_of_differ trivial)
  · cases stop
    exact iff_of_false Bool.false_ne_true (not_sameElements_of_differ trivial)
  · simp only [verdict] at stop
    split_ifs at stop with one matched
    · cases stop
      cases left.one_cell ready rooted stands stands' right one
      exact iff_of_true rfl (sameElements_refl reflexive)
    · cases stop
      have apart : Differ same (some a) (some b) := Bool.eq_false_of_not_eq_true matched
      exact iff_of_false Bool.false_ne_true (not_sameElements_of_differ apart)

end Store

end Meaning

namespace Sequence

variable {s t : Sequence ν} {store store' : Store ω ν} {fuel : Nat} {answer : Bool}

/-- A comparison that goes on through shared nodes answers the same where it comes back. -/
theorem sameElements_of_equalThroughout (ready : store.Ready M) (has : store.Has s)
    (has' : store.Has t) (result : s.equalThroughout same t fuel store = some (answer, store')) :
    answer = true ↔ M.SameElements same s t := by
  refine Lazy.post_of_iterate (I := fun both store₁ => store₁.Ready M ∧ store₁.Has both.1 ∧
      store₁.Has both.2 ∧ (M.SameElements same both.1 both.2 ↔ M.SameElements same s t))
    (P := fun answer _ => answer = true ↔ M.SameElements same s t) ?_
    ⟨ready, has, has', Iff.rfl⟩ result
  have differing (s₁ t₁ : Sequence ν) (apart : s₁.Differ same t₁) :
      false = true ↔ M.SameElements same s₁ t₁ :=
    iff_of_false Bool.false_ne_true (Meaning.not_sameElements_of_differ apart)
  rintro ⟨_ | a, _ | b⟩ store₁ r store₂ ⟨ready, has, has', passed⟩ step
  · cases step
    exact (iff_of_true rfl Meaning.sameElements_nil).trans passed
  · cases step
    exact (differing none (some b) trivial).trans passed
  · cases step
    exact (differing (some a) none trivial).trans passed
  · cases matched : same a.value b.value with
    | false =>
      simp only [matched] at step
      cases step
      exact (differing (some a) (some b) matched).trans passed
    | true =>
      simp only [matched] at step
      obtain ⟨q, store₃, looked, step⟩ := Lazy.bind_eq_some.mp step
      obtain ⟨q', store₄, looked', step⟩ := Lazy.bind_eq_some.mp step
      cases step
      obtain ⟨leaves, behind, follows⟩ := after_of_rest ready has looked
      obtain ⟨leaves', behind', follows'⟩ :=
        after_of_rest leaves.ready (leaves.has has') looked'
      refine ⟨leaves'.ready, leaves'.has behind, behind', ?_⟩
      rw [← passed, Meaning.sameElements_cons follows follows', and_iff_right matched]

end Sequence

end DemandLex
