import DemandLex.Proofs.Sequence.Listing
import DemandLex.Proofs.Sequence.Producer

/-! What becomes known of a sequence that is followed for so many elements, and of a producer that is
played for so many moves. Both only grow, and what they come to is the list that the sequence holds
and the producer gives. -/

namespace DemandLex

variable {ω ν σ τ α β : Type} {M N : Meaning ν}

namespace Meaning

/-- What is known of a sequence when it has been followed for so many places. -/
def shown (M : Meaning ν) : Nat → Sequence ν → Listing ν
  | 0, _ => .unknown
  | _ + 1, none => .whole []
  | n + 1, some cell => .cons cell.value ((M.after cell.node).elim .unknown (M.shown n))

theorem shown_le_succ {n : Nat} {s : Sequence ν} : M.shown n s ≤ M.shown (n + 1) s := by
  induction n generalizing s with
  | zero => exact Listing.unknown_le
  | succ n ih =>
    cases s with
    | none => exact le_rfl
    | some cell =>
      apply Listing.cons_le
      cases M.after cell.node with
      | none => exact le_rfl
      | some rest => exact ih

theorem shown_mono {s : Sequence ν} : Monotone fun n => M.shown n s :=
  monotone_nat_of_le_succ fun _ => shown_le_succ

/-- One place is enough to know the first element, or that there is none. -/
theorem isHeaded_shown {n : Nat} {s : Sequence ν} : (M.shown (n + 1) s).isHeaded = true := by
  cases s with
  | none => rfl
  | some cell => simp [shown, Listing.isHeaded, Listing.cons]

inductive Passes (M : Meaning ν) : Sequence ν → List ν → Sequence ν → Prop
  | nil {s : Sequence ν} : Passes M s [] s
  | cons {cell : Cell ν} {rest t : Sequence ν} {values : List ν}
      (follows : M.after cell.node = some rest) (tail : Passes M rest values t) :
      Passes M (some cell) (cell.value :: values) t

theorem Passes.concat {s rest : Sequence ν} {cell : Cell ν} {values : List ν}
    (passes : M.Passes s values (some cell)) (follows : M.after cell.node = some rest) :
    M.Passes s (values ++ [cell.value]) rest := by
  generalize same : (some cell : Sequence ν) = t at passes
  induction passes with
  | nil =>
    cases same
    exact .cons follows .nil
  | cons follows' tail ih => exact .cons follows' (ih same)

theorem Passes.shown {s t : Sequence ν} {values : List ν} (passes : M.Passes s values t) (n : Nat) :
    M.shown (n + values.length) s = (Listing.whole values).append (M.shown n t) := by
  induction passes with
  | nil => rfl
  | cons follows tail ih =>
    rw [List.length_cons, ← Nat.add_assoc, Meaning.shown, follows, Option.elim_some, ih]
    rfl

theorem holds_iff {s : Sequence ν} {values : List ν} :
    M.Holds s values ↔ ∃ n, M.shown n s = .whole values := by
  constructor
  · intro holds
    induction holds with
    | nil => exact ⟨1, rfl⟩
    | cons follows tail ih =>
      obtain ⟨n, known⟩ := ih
      refine ⟨n + 1, ?_⟩
      rw [shown, follows, Option.elim_some, known]
      rfl
  · rintro ⟨n, known⟩
    induction n generalizing s values with
    | zero => cases congrArg Listing.complete known
    | succ n ih =>
      cases s with
      | none =>
        cases congrArg Listing.known known
        exact .nil
      | some cell =>
        cases values with
        | nil => cases congrArg Listing.known known
        | cons value values =>
          have parts : Listing.cons cell.value _ = Listing.cons value (.whole values) := known
          obtain ⟨rfl, rest⟩ := Listing.cons_inj.mp parts
          cases follows : M.after cell.node with
          | none =>
            rw [follows] at rest
            cases congrArg Listing.complete rest
          | some rest' =>
            rw [follows] at rest
            exact .cons follows (ih rest)

theorem begins_shown {n : Nat} {s : Sequence ν} : M.Begins s (M.shown n s).known := by
  induction n generalizing s with
  | zero => exact .nil
  | succ n ih =>
    cases s with
    | none => exact .nil
    | some cell =>
      cases follows : M.after cell.node with
      | none =>
        rw [shown, follows]
        exact .one
      | some rest =>
        rw [shown, follows]
        exact .cons follows ih

/-- Following a sequence comes to the same as the listings do. -/
def Denotes (M : Meaning ν) (s : Sequence ν) (c : Nat → Listing ν) : Prop :=
  Listing.SameLimit (fun n => M.shown n s) c

theorem denotes_shown (M : Meaning ν) (s : Sequence ν) : M.Denotes s fun n => M.shown n s :=
  .refl shown_mono

theorem shown_agree {bound n : Nat} {s : Sequence ν} (agree : M.Agree N bound)
    (descends : M.Descends bound) (within : ∀ cell, s = some cell → cell.node.spine < bound) :
    N.shown n s = M.shown n s := by
  induction n generalizing s with
  | zero => rfl
  | succ n ih =>
    cases s with
    | none => rfl
    | some cell =>
      have older := within cell rfl
      rw [shown, shown, agree.after older]
      cases follows : M.after cell.node with
      | none => rfl
      | some rest =>
        have behind : ∀ cell', rest = some cell' → cell'.node.spine < bound := by
          rintro cell' rfl
          exact Nat.lt_of_le_of_lt (descends.after older follows) older
        rw [Option.elim_some, Option.elim_some, ih behind]

end Meaning

namespace Producer

/-- What is known of the elements from a state on after so many moves. -/
def given (M : Meaning ν) (step : σ → Noted ω (Move ν σ α)) : Nat → σ → Listing α
  | 0, _ => .unknown
  | n + 1, s =>
    match (step s).value with
    | .yield value next => .cons value (given M step n next)
    | .skip next => given M step n next
    | .force node resume => (M.after node).elim .unknown fun q => given M step n (resume q)
    | .done => .whole []

section Given
variable {step : σ → Noted ω (Move ν σ α)} {s next : σ} {n : Nat} {value : α}

theorem given_yield (move : (step s).value = .yield value next) :
    given M step (n + 1) s = .cons value (given M step n next) := by
  simp only [given, move]

theorem given_skip (move : (step s).value = .skip next) :
    given M step (n + 1) s = given M step n next := by
  simp only [given, move]

theorem given_force {node : Node} {resume : Sequence ν → σ} {q : Sequence ν}
    (move : (step s).value = .force node resume) (follows : M.after node = some q) :
    given M step (n + 1) s = given M step n (resume q) := by
  simp only [given, move, follows, Option.elim_some]

theorem given_stuck {node : Node} {resume : Sequence ν → σ}
    (move : (step s).value = .force node resume) (stuck : M.after node = none) :
    given M step (n + 1) s = .unknown := by
  simp only [given, move, stuck, Option.elim_none]

theorem given_done (move : (step s).value = .done) : given M step (n + 1) s = .whole [] := by
  simp only [given, move]

theorem given_le_succ : given M step n s ≤ given M step (n + 1) s := by
  induction n generalizing s with
  | zero => exact Listing.unknown_le
  | succ n ih =>
    cases move : (step s).value with
    | yield value next =>
      rw [given_yield move, given_yield move]
      exact Listing.cons_le ih
    | skip next =>
      rw [given_skip move, given_skip move]
      exact ih
    | force node resume =>
      cases follows : M.after node with
      | none => rw [given_stuck move follows, given_stuck move follows]
      | some q =>
        rw [given_force move follows, given_force move follows]
        exact ih
    | done => rw [given_done move, given_done move]

theorem given_mono : Monotone fun n => given M step n s :=
  monotone_nat_of_le_succ fun _ => given_le_succ

def givenAt (M : Meaning ν) (step : σ → Noted ω (Move ν σ α)) (n : Nat) :
    Option (α × σ) → Listing α
  | some (value, next) => .cons value (given M step n next)
  | none => .whole []

theorem Reaches.given {r : Option (α × σ)} (reached : Reaches M step s r) :
    ∃ moves, ∀ n, Producer.given M step (moves + n) s = givenAt M step n r := by
  induction reached with
  | yield move => exact ⟨1, fun n => by rw [Nat.add_comm]; exact given_yield move⟩
  | done move => exact ⟨1, fun n => by rw [Nat.add_comm]; exact given_done move⟩
  | skip move later ih =>
    obtain ⟨moves, known⟩ := ih
    refine ⟨moves + 1, fun n => ?_⟩
    rw [Nat.add_right_comm, given_skip move]
    exact known n
  | force move follows later ih =>
    obtain ⟨moves, known⟩ := ih
    refine ⟨moves + 1, fun n => ?_⟩
    rw [Nat.add_right_comm, given_force move follows]
    exact known n

/-- Where a first element is known, or that there is none, the producer has come to rest. -/
theorem reaches_of_given (headed : (given M step n s).isHeaded = true) :
    ∃ r, Reaches M step s r ∧ ∃ m < n, given M step n s = givenAt M step m r := by
  induction n generalizing s with
  | zero => cases headed
  | succ n ih =>
    cases move : (step s).value with
    | yield value next =>
      exact ⟨_, .yield move, n, Nat.lt_succ_self n, given_yield move⟩
    | skip next =>
      rw [given_skip move] at headed ⊢
      obtain ⟨r, reached, m, less, known⟩ := ih headed
      exact ⟨r, .skip move reached, m, less.trans (Nat.lt_succ_self n), known⟩
    | force node resume =>
      cases follows : M.after node with
      | none =>
        rw [given_stuck move follows] at headed
        cases headed
      | some q =>
        rw [given_force move follows] at headed ⊢
        obtain ⟨r, reached, m, less, known⟩ := ih headed
        exact ⟨r, .force move follows reached, m, less.trans (Nat.lt_succ_self n), known⟩
    | done => exact ⟨none, .done move, n, Nat.lt_succ_self n, given_done move⟩

theorem given_agree {bound : Nat} {sizes : Nat → Nat} (grounded : Grounded bound step sizes s)
    (agree : M.Agree N bound) (descends : M.Descends bound) :
    given N step n s = given M step n s := by
  induction n generalizing s sizes with
  | zero => rfl
  | succ n ih =>
    have keeps := grounded.keeps
    cases move : (step s).value with
    | yield value next =>
      rw [move] at keeps
      rw [given_yield move, given_yield move, ih keeps]
    | skip next =>
      rw [move] at keeps
      rw [given_skip move, given_skip move, ih keeps]
    | force node resume =>
      rw [move] at keeps
      have same := agree.after keeps.1
      cases follows : M.after node with
      | none => rw [given_stuck move follows, given_stuck move (same.trans follows)]
      | some q =>
        rw [given_force move follows, given_force move (same.trans follows),
          ih (grounded.resume descends move follows).2]
    | done => rw [given_done move, given_done move]

end Given

section Spine
variable {step : σ → Noted ω (Move ν σ ν)} {s : σ} {id index : Nat} {tail q : Sequence ν}

/-- All that a spine shows its producer has given, or stands in the tail. -/
theorem Continues.shown_le (continues : Continues M id index step s tail)
    (stands : M ⟨id, index⟩ = some q) {n : Nat} :
    ∃ m, M.shown n q ≤ (given M step m s).append (M.shown n tail) := by
  induction n generalizing index s q with
  | zero => exact ⟨0, Listing.unknown_le⟩
  | succ n ih =>
    obtain ⟨r, reached, rfl⟩ := continues.here.mp stands
    obtain ⟨moves, known⟩ := reached.given
    cases r with
    | none =>
      refine ⟨moves + 0, ?_⟩
      rw [known]
      exact le_rfl
    | some found =>
      obtain ⟨value, next⟩ := found
      have behind := continues.behind reached
      simp only [stand, Meaning.shown, Meaning.after]
      cases follows : M ⟨id, index + 1⟩ with
      | none =>
        refine ⟨moves + 0, ?_⟩
        rw [known, givenAt, Listing.append_cons]
        exact Listing.cons_le Listing.unknown_le
      | some rest =>
        obtain ⟨m, le⟩ := ih behind follows
        refine ⟨moves + m, ?_⟩
        rw [known, givenAt, Listing.append_cons]
        apply Listing.cons_le
        exact le.trans (Listing.append_le le_rfl Meaning.shown_le_succ)

theorem Continues.le_shown (continues : Continues M id index step s tail)
    (stands : M ⟨id, index⟩ = some q) {m n : Nat} :
    ∃ k, (given M step m s).append (M.shown n tail) ≤ M.shown k q := by
  induction m using Nat.strongRecOn generalizing index s q with
  | ind m ih =>
    cases headed : (given M step m s).isHeaded with
    | false =>
      refine ⟨0, ?_⟩
      rw [Listing.eq_unknown_of_isHeaded headed]
      exact Listing.unknown_le
    | true =>
      obtain ⟨r, reached, m', less, known⟩ := reaches_of_given headed
      have stands' := continues.here.mpr ⟨r, reached, rfl⟩
      cases stands.symm.trans stands'
      rw [known]
      cases r with
      | none => exact ⟨n, le_rfl⟩
      | some found =>
        obtain ⟨value, next⟩ := found
        rw [givenAt, Listing.append_cons]
        have behind := continues.behind reached
        cases headed' : (given M step m' next).isHeaded with
        | false =>
          refine ⟨1, Listing.cons_le ?_⟩
          rw [Listing.eq_unknown_of_isHeaded headed']
          exact Listing.unknown_le
        | true =>
          obtain ⟨r', reached', -⟩ := reaches_of_given headed'
          have follows := behind.here.mpr ⟨r', reached', rfl⟩
          obtain ⟨k, le⟩ := ih m' less behind follows
          refine ⟨k + 1, Listing.cons_le ?_⟩
          rw [Meaning.after, follows]
          exact le

theorem Continues.sameLimit (continues : Continues M id index step s tail)
    (stands : M ⟨id, index⟩ = some q) :
    Listing.SameLimit (fun n => M.shown n q)
      fun n => (given M step n s).append (M.shown n tail) where
  le n := by
    obtain ⟨m, le⟩ := continues.shown_le stands (n := n)
    have mono : Monotone fun n => (given M step n s).append (M.shown n tail) :=
      fun _ _ later => Listing.append_le (given_mono later) (Meaning.shown_mono later)
    refine Listing.eventually_le mono (n := max m n) (le.trans ?_)
    exact Listing.append_le (given_mono (Nat.le_max_left ..)) (Meaning.shown_mono (Nat.le_max_right ..))
  ge n := by
    obtain ⟨k, le⟩ := continues.le_shown stands (m := n) (n := n)
    exact Listing.eventually_le Meaning.shown_mono le

end Spine

end Producer

end DemandLex
