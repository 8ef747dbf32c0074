import DemandLex.Proofs.Sequence.Spine

/-! A new spine extends the meaning of the older ones and changes nothing that they say. -/

namespace DemandLex

variable {ω ν σ α : Type}

namespace Meaning
variable {M N : Meaning ν} {bound bound' : Nat}

/-- No spine before `bound` goes on in a spine that is newer than itself. -/
def Descends (M : Meaning ν) (bound : Nat) : Prop :=
  ∀ node cell, node.spine < bound → M node = some (some cell) → cell.node.spine ≤ node.spine

theorem Agree.after {node : Node} (agree : M.Agree N bound) (older : node.spine < bound) :
    N.after node = M.after node := agree ⟨node.spine, node.index + 1⟩ older

theorem Descends.after {node : Node} {cell : Cell ν} (descends : M.Descends bound)
    (older : node.spine < bound) (follows : M.after node = some (some cell)) :
    cell.node.spine ≤ node.spine := descends ⟨node.spine, node.index + 1⟩ cell older follows

theorem Agree.symm (agree : M.Agree N bound) : N.Agree M bound :=
  fun node older => (agree node older).symm

theorem Agree.trans {K : Meaning ν} (first : M.Agree N bound) (second : N.Agree K bound') :
    bound ≤ bound' → M.Agree K bound :=
  fun fewer node older => (second node (Nat.lt_of_lt_of_le older fewer)).trans (first node older)

theorem Agree.weaken (agree : M.Agree N bound) (fewer : bound' ≤ bound) : M.Agree N bound' :=
  fun node older => agree node (Nat.lt_of_lt_of_le older fewer)

theorem Agree.descends (agree : M.Agree N bound) (descends : M.Descends bound) :
    N.Descends bound := by
  intro node cell older stands
  rw [agree node older] at stands
  exact descends node cell older stands

theorem Descends.weaken (descends : M.Descends bound) (fewer : bound' ≤ bound) :
    M.Descends bound' :=
  fun node cell older => descends node cell (Nat.lt_of_lt_of_le older fewer)

theorem Holds.agree {s : Sequence ν} {values : List ν} (holds : M.Holds s values)
    (agree : M.Agree N bound) (descends : M.Descends bound)
    (within : ∀ cell, s = some cell → cell.node.spine < bound) : N.Holds s values := by
  induction holds with
  | nil => exact .nil
  | @cons cell rest values follows tail ih =>
    have older := within cell rfl
    refine .cons ((agree.after older).trans follows) (ih ?_)
    intro cell' same
    subst same
    exact Nat.lt_of_le_of_lt (descends.after older follows) older

end Meaning

namespace Producer

section Agreement
variable {M N : Meaning ν} {bound : Nat} {step : σ → Noted ω (Move ν σ α)} {sizes : Nat → Nat}
  {s : σ}

def sizesWith (sizes : Nat → Nat) (q : Sequence ν) (id : Nat) : Nat :=
  match q with
  | none => sizes id
  | some cell => max (sizes id) (cell.node.index + 1)

private theorem le_sizesWith (q : Sequence ν) : sizes ≤ sizesWith sizes q := by
  intro id
  cases q with
  | none => exact Nat.le_refl _
  | some cell => exact Nat.le_max_left _ _

private theorem within_sizesWith {q : Sequence ν}
    (older : ∀ cell, q = some cell → cell.node.spine < bound) :
    q.Within bound (sizesWith sizes q) := by
  intro cell same
  subst same
  exact ⟨older cell rfl, Nat.lt_of_lt_of_le (Nat.lt_succ_self _) (Nat.le_max_right _ _)⟩

/-- A sequence that follows a node of an older spine keeps a producer grounded. -/
theorem Grounded.resume {node : Node} {resume : Sequence ν → σ} {q : Sequence ν}
    (grounded : Grounded bound step sizes s) (descends : M.Descends bound)
    (move : (step s).value = .force node resume) (follows : M.after node = some q) :
    node.spine < bound ∧ Grounded bound step (sizesWith sizes q) (resume q) := by
  have keeps := grounded.keeps
  rw [move] at keeps
  obtain ⟨older, -, resumes⟩ := keeps
  refine ⟨older, resumes _ (le_sizesWith q) q (within_sizesWith ?_)⟩
  intro cell same
  subst same
  exact Nat.lt_of_le_of_lt (descends.after older follows) older

theorem Reaches.grounded {value : α} {next : σ} (grounded : Grounded bound step sizes s)
    (descends : M.Descends bound) (reached : Reaches M step s (some (value, next))) :
    ∃ sizes, Grounded bound step sizes next := by
  generalize same : some (value, next) = r at reached
  induction reached generalizing sizes with
  | yield move =>
    cases same
    have keeps := grounded.keeps
    rw [move] at keeps
    exact ⟨sizes, keeps⟩
  | done => cases same
  | skip move later ih =>
    have keeps := grounded.keeps
    rw [move] at keeps
    exact ih keeps same
  | force move follows later ih => exact ih (grounded.resume descends move follows).2 same

theorem Reaches.agree {r : Option (α × σ)} (reached : Reaches M step s r)
    (grounded : Grounded bound step sizes s) (agree : M.Agree N bound)
    (descends : M.Descends bound) : Reaches N step s r := by
  induction reached generalizing sizes with
  | yield move => exact .yield move
  | done move => exact .done move
  | skip move later ih =>
    have keeps := grounded.keeps
    rw [move] at keeps
    exact .skip move (ih keeps)
  | force move follows later ih =>
    obtain ⟨older, next⟩ := grounded.resume descends move follows
    exact .force move ((agree.after older).trans follows) (ih next)

theorem Starts.agree {values : List α} {last : σ} (start : Starts M step s values last)
    (grounded : Grounded bound step sizes s) (agree : M.Agree N bound)
    (descends : M.Descends bound) :
    Starts N step s values last ∧ ∃ sizes, Grounded bound step sizes last := by
  induction start generalizing sizes with
  | nil => exact ⟨.nil, sizes, grounded⟩
  | cons first later ih =>
    obtain ⟨sizes', next⟩ := first.grounded grounded descends
    obtain ⟨start, last⟩ := ih next
    exact ⟨.cons (first.agree grounded agree descends) start, last⟩

theorem Gives.agree {values : List α} (gives : Gives M step s values)
    (grounded : Grounded bound step sizes s) (agree : M.Agree N bound)
    (descends : M.Descends bound) : Gives N step s values := by
  obtain ⟨last, start, stop⟩ := gives
  obtain ⟨start, sizes', behind⟩ := start.agree grounded agree descends
  exact ⟨last, start, stop.agree behind agree descends⟩

end Agreement

section Extend
variable {M N : Meaning ν} {id index : Nat} {step : σ → Noted ω (Move ν σ ν)} {sizes : Nat → Nat}
  {s : σ} {tail : Sequence ν}

theorem Continues.agree (continues : Continues M id index step s tail)
    (grounded : Grounded id step sizes s) (agree : M.Agree N (id + 1))
    (descends : M.Descends id) : Continues N id index step s tail := by
  have older : M.Agree N id := agree.weaken (Nat.le_succ id)
  intro values last start q
  obtain ⟨start', sizes', behind⟩ := start.agree grounded older.symm (older.descends descends)
  rw [agree _ (Nat.lt_succ_self id), continues values last start' q]
  constructor
  · intro found
    obtain ⟨r, reached, same⟩ := found
    exact ⟨r, reached.agree behind older descends, same⟩
  · intro found
    obtain ⟨r, reached, same⟩ := found
    exact ⟨r, reached.agree behind older.symm (older.descends descends), same⟩

/-- What a producer reaches behind so many elements, as the sequence that stands there. -/
def StandsBehind (M : Meaning ν) (step : σ → Noted ω (Move ν σ ν)) (s : σ) (id : Nat)
    (tail : Sequence ν) (index : Nat) (q : Sequence ν) : Prop :=
  ∃ values last r, values.length = index ∧ Starts M step s values last ∧ Reaches M step last r ∧
    q = stand id index tail r

open Classical in
noncomputable def extend (M : Meaning ν) (id : Nat) (step : σ → Noted ω (Move ν σ ν)) (s : σ)
    (tail : Sequence ν) : Meaning ν := fun node =>
  if node.spine = id then
    if h : ∃ q, StandsBehind M step s id tail node.index q then some h.choose else none
  else M node

theorem agree_extend : M.Agree (extend M id step s tail) id := by
  intro node older
  rw [extend, if_neg (Nat.ne_of_lt older)]

theorem extend_eq_some {q : Sequence ν} :
    extend M id step s tail ⟨id, index⟩ = some q ↔ StandsBehind M step s id tail index q := by
  rw [extend, if_pos rfl]
  split
  · next found =>
    rw [Option.some_inj]
    constructor
    · intro same
      subst same
      exact found.choose_spec
    · intro found
      obtain ⟨values, last, r, count, start, reached, rfl⟩ := found
      obtain ⟨values', last', r', count', start', reached', same⟩ := found.choose_spec
      obtain ⟨rfl, rfl⟩ := start.unique start' (count.trans count'.symm)
      cases reached.unique reached'
      exact same
  · next missing =>
    constructor
    · intro none
      cases none
    · intro found
      exact absurd ⟨q, found⟩ missing

theorem continues_extend (grounded : Grounded id step sizes s) (descends : M.Descends id) :
    Continues (extend M id step s tail) id 0 step s tail := by
  have agree : M.Agree (extend M id step s tail) id := agree_extend
  intro values last start q
  obtain ⟨start', sizes', behind⟩ := start.agree grounded agree.symm (agree.descends descends)
  rw [Nat.zero_add, extend_eq_some]
  constructor
  · intro found
    obtain ⟨values', last', r, count, start'', reached, same⟩ := found
    obtain ⟨rfl, rfl⟩ := start''.unique start' count
    exact ⟨r, reached.agree behind agree descends, same⟩
  · intro found
    obtain ⟨r, reached, same⟩ := found
    exact ⟨values, last, r, rfl, start', reached.agree behind agree.symm (agree.descends descends),
      same⟩

theorem descends_extend (descends : M.Descends id) (within : tail.Within id sizes) :
    (extend M id step s tail).Descends (id + 1) := by
  intro node cell older stands
  by_cases new : node.spine = id
  · obtain ⟨spine, index⟩ := node
    cases new
    obtain ⟨values, last, r, count, start, reached, same⟩ := extend_eq_some.mp stands
    cases r with
    | none => exact Nat.le_of_lt (within cell same.symm).1
    | some found =>
      cases same
      exact Nat.le_refl _
  · have before : node.spine < id := by omega
    rw [agree_extend node before] at stands
    exact descends node cell before stands

end Extend

end Producer

end DemandLex
