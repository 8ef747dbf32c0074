import DemandLex.Proofs.Sequence.Meaning

/-! What a spine goes on with. A producer that is grounded asks only older spines, so a meaning of
the older spines settles what the producer gives, and can be extended by it. -/

namespace DemandLex

variable {ω ν σ α : Type}

/-- What a move leaves behind satisfies an invariant, and a move that asks for the sequence after a
node asks an older spine at a place already computed. -/
def Move.Keeps (bound : Nat) (Inv : (Nat → Nat) → σ → Prop) (sizes : Nat → Nat) :
    Move ν σ α → Prop
  | .yield _ next => Inv sizes next
  | .skip next => Inv sizes next
  | .force node resume => node.spine < bound ∧ node.index < sizes node.spine ∧
      ∀ sizes', sizes ≤ sizes' → ∀ q : Sequence ν, q.Within bound sizes' → Inv sizes' (resume q)
  | .done => True

theorem Move.Keeps.mono {bound : Nat} {Inv Inv' : (Nat → Nat) → σ → Prop} {sizes : Nat → Nat}
    {move : Move ν σ α} (keeps : move.Keeps bound Inv sizes)
    (weaker : ∀ sizes s, Inv sizes s → Inv' sizes s) : move.Keeps bound Inv' sizes := by
  cases move with
  | yield value next => exact weaker _ _ keeps
  | skip next => exact weaker _ _ keeps
  | force node resume =>
    exact ⟨keeps.1, keeps.2.1, fun sizes' more q within => weaker _ _ (keeps.2.2 sizes' more q within)⟩
  | done => exact trivial

namespace Producer

/-- From this state on, only spines before `bound` are asked, and only at computed places. -/
def Grounded (bound : Nat) (step : σ → Noted ω (Move ν σ α)) (sizes : Nat → Nat) (s : σ) : Prop :=
  ∃ Inv : (Nat → Nat) → σ → Prop, Inv sizes s ∧
    ∀ sizes s, Inv sizes s → (step s).value.Keeps bound Inv sizes

section Grounded
variable {bound : Nat} {step : σ → Noted ω (Move ν σ α)} {sizes sizes' : Nat → Nat} {s : σ}

theorem Grounded.keeps (grounded : Grounded bound step sizes s) :
    (step s).value.Keeps bound (Grounded bound step) sizes := by
  obtain ⟨Inv, here, steps⟩ := grounded
  exact (steps sizes s here).mono fun _ _ kept => ⟨Inv, kept, steps⟩

theorem Grounded.grow (grounded : Grounded bound step sizes s) (more : sizes ≤ sizes') :
    Grounded bound step sizes' s := by
  refine ⟨fun sizes' s => ∃ sizes, sizes ≤ sizes' ∧ Grounded bound step sizes s,
    ⟨sizes, more, grounded⟩, ?_⟩
  intro sizes' s found
  obtain ⟨sizes, more, grounded⟩ := found
  have keeps := grounded.keeps
  cases moved : (step s).value with
  | yield value next =>
    rw [moved] at keeps
    exact ⟨sizes, more, keeps⟩
  | skip next =>
    rw [moved] at keeps
    exact ⟨sizes, more, keeps⟩
  | force node resume =>
    rw [moved] at keeps
    obtain ⟨older, computed, resumes⟩ := keeps
    refine ⟨older, Nat.lt_of_lt_of_le computed (more _), ?_⟩
    intro sizes'' more' q within
    have both : sizes ≤ sizes'' := fun i => Nat.le_trans (more i) (more' i)
    exact ⟨sizes'', fun _ => Nat.le_refl _, resumes sizes'' both q within⟩
  | done => exact trivial

theorem grounded_of_alone (alone : ∀ s node resume, (step s).value ≠ .force node resume) :
    Grounded bound step sizes s := by
  refine ⟨fun _ _ => True, trivial, ?_⟩
  intro sizes s _
  cases moved : (step s).value with
  | force node resume => exact absurd moved (alone s node resume)
  | yield | skip | done => exact trivial

end Grounded

section Starts
variable {M : Meaning ν} {step : σ → Noted ω (Move ν σ α)}

theorem Starts.unique {s last last' : σ} {values values' : List α}
    (left : Starts M step s values last) (right : Starts M step s values' last')
    (same : values.length = values'.length) : values = values' ∧ last = last' := by
  induction left generalizing values' with
  | nil =>
    cases right with
    | nil => exact ⟨rfl, rfl⟩
    | cons => cases same
  | cons first later ih =>
    cases right with
    | nil => cases same
    | cons first' later' =>
      cases first.unique first'
      obtain ⟨rfl, rfl⟩ := ih later' (Nat.succ.inj same)
      exact ⟨rfl, rfl⟩

end Starts

def stand (id index : Nat) (tail : Sequence ν) : Option (ν × σ) → Sequence ν
  | some (value, _) => some ⟨value, id, index⟩
  | none => tail

/-- From this place on, a spine has what a producer gives from this state on, and then a tail. -/
def Continues (M : Meaning ν) (id index : Nat) (step : σ → Noted ω (Move ν σ ν)) (s : σ)
    (tail : Sequence ν) : Prop :=
  ∀ values last, Starts M step s values last → ∀ q,
    M ⟨id, index + values.length⟩ = some q ↔
      ∃ r, Reaches M step last r ∧ q = stand id (index + values.length) tail r

section Continues
variable {M : Meaning ν} {id index : Nat} {step : σ → Noted ω (Move ν σ ν)} {s s' : σ}
  {tail q : Sequence ν}

theorem Continues.here (continues : Continues M id index step s tail) :
    M ⟨id, index⟩ = some q ↔ ∃ r, Reaches M step s r ∧ q = stand id index tail r :=
  continues [] s .nil q

theorem Continues.behind {value : ν} (continues : Continues M id index step s tail)
    (reached : Reaches M step s (some (value, s'))) :
    Continues M id (index + 1) step s' tail := by
  intro values last start q
  have place : index + 1 + values.length = index + (value :: values).length := by
    rw [List.length_cons]
    omega
  rw [place]
  exact continues (value :: values) last (.cons reached start) q

theorem Continues.congr (continues : Continues M id index step s tail)
    (same : ∀ r, Reaches M step s r ↔ Reaches M step s' r) :
    Continues M id index step s' tail := by
  intro values last start q
  cases start with
  | nil =>
    rw [List.length_nil, Nat.add_zero, continues.here]
    simp only [same]
  | cons first later => exact continues _ _ (.cons ((same _).mpr first) later) q

theorem Continues.holds {values values' : List ν} (continues : Continues M id index step s tail)
    (gives : Gives M step s values) (rest : M.Holds tail values')
    (stands : M ⟨id, index⟩ = some q) : M.Holds q (values ++ values') := by
  induction values generalizing index s q with
  | nil =>
    obtain ⟨r, reached, rfl⟩ := continues.here.mp stands
    cases reached.unique (gives_nil.mp gives)
    exact rest
  | cons value values ih =>
    obtain ⟨next, first, later⟩ := gives_cons.mp gives
    obtain ⟨r, reached, rfl⟩ := continues.here.mp stands
    cases reached.unique first
    have behind := continues.behind first
    obtain ⟨last, start, stop⟩ := later
    have reachable : ∃ r, Reaches M step next r := by
      cases start with
      | nil => exact ⟨none, stop⟩
      | cons second _ => exact ⟨_, second⟩
    obtain ⟨r, second⟩ := reachable
    have follows := behind.here.mpr ⟨r, second, rfl⟩
    exact .cons follows (ih behind ⟨last, start, stop⟩ follows)

theorem Continues.starts {values : List ν} (continues : Continues M id index step s none)
    (stands : M ⟨id, index⟩ = some q) (begins : M.Begins q values) :
    ∃ last, Starts M step s values last := by
  induction values generalizing index s q with
  | nil => exact ⟨s, .nil⟩
  | cons value values ih =>
    obtain ⟨r, reached, rfl⟩ := continues.here.mp stands
    cases r with
    | none => cases begins
    | some found =>
      obtain ⟨value, next⟩ := found
      cases begins with
      | one => exact ⟨next, .cons reached .nil⟩
      | cons follows later =>
        obtain ⟨last, start⟩ := ih (continues.behind reached) follows later
        exact ⟨last, .cons reached start⟩

end Continues

end Producer

end DemandLex
