import DemandLex.Proofs.Sequence.Producer
import DemandLex.StepFunction.Stream

/-! The sides of a walk over two streams, and where their streams come to rest. -/

namespace DemandLex

variable {ω ν σ τ κ α β : Type} {M : Meaning ν}

namespace Side

variable {step : σ → Noted ω (Move ν σ α)} {side : Side σ α}

def rested : Option (α × σ) → Side σ α
  | some (value, next) => .ready value next
  | none => .ended

theorem pending_or_rested (side : Side σ α) :
    (∃ s, side = .pending s) ∨ ∃ r, side = rested r := by
  cases side with
  | pending s => exact Or.inl ⟨s, rfl⟩
  | ready value next => exact Or.inr ⟨some (value, next), rfl⟩
  | ended => exact Or.inr ⟨none, rfl⟩

def Reaches (M : Meaning ν) (step : σ → Noted ω (Move ν σ α)) : Side σ α → Option (α × σ) → Prop
  | .pending s, r => Producer.Reaches M step s r
  | .ready value next, r => r = some (value, next)
  | .ended, r => r = none

def Begins (M : Meaning ν) (step : σ → Noted ω (Move ν σ α)) (side : Side σ α) : List α → Prop
  | [] => True
  | value :: later => ∃ next last, side.Reaches M step (some (value, next)) ∧
      Producer.Starts M step next later last

def Gives (M : Meaning ν) (step : σ → Noted ω (Move ν σ α)) (side : Side σ α) : List α → Prop
  | [] => side.Reaches M step none
  | value :: later => ∃ next, side.Reaches M step (some (value, next)) ∧
      Producer.Gives M step next later

theorem reaches_rested {r r' : Option (α × σ)} : (rested r).Reaches M step r' ↔ r' = r := by
  cases r <;> exact Iff.rfl

theorem Reaches.unique {r r' : Option (α × σ)} (reached : side.Reaches M step r)
    (reached' : side.Reaches M step r') : r' = r := by
  cases side with
  | pending s => exact Producer.Reaches.unique reached' reached
  | ready | ended => exact reached'.trans reached.symm

theorem Gives.reaches {values : List α} (gives : side.Gives M step values) :
    ∃ r, side.Reaches M step r := by
  cases values with
  | nil => exact ⟨none, gives⟩
  | cons value later =>
    obtain ⟨next, reached, -⟩ := gives
    exact ⟨_, reached⟩

theorem gives_pending {s : σ} {values : List α} :
    (pending s).Gives M step values ↔ Producer.Gives M step s values := by
  cases values with
  | nil => exact Producer.gives_nil.symm
  | cons value later => exact Producer.gives_cons.symm

def Shows (M : Meaning ν) (step : σ → Noted ω (Move ν σ α)) (values : List α) :
    Option (α × σ) → Prop
  | none => values = []
  | some (value, next) => ∃ later, values = value :: later ∧ Producer.Gives M step next later

theorem Gives.shows {values : List α} {r : Option (α × σ)} (gives : side.Gives M step values)
    (reached : side.Reaches M step r) : Shows M step values r := by
  cases values with
  | nil =>
    cases reached.unique gives
    exact rfl
  | cons value later =>
    obtain ⟨next, reached', rest⟩ := gives
    cases reached.unique reached'
    exact ⟨later, rfl, rest⟩

theorem Shows.head {values : List α} {r : Option (α × σ)} {P : α → Prop}
    (shows : Shows M step values r) (first : ∀ value next, r = some (value, next) → P value) :
    ∀ value ∈ values.head?, P value := by
  cases r with
  | none =>
    cases shows
    simp
  | some reached =>
    obtain ⟨later, rfl, -⟩ := shows
    simpa using first _ _ rfl

theorem Gives.rested {values : List α} {r : Option (α × σ)} (gives : side.Gives M step values)
    (reached : side.Reaches M step r) : (rested r).Gives M step values := by
  cases values with
  | nil => exact reaches_rested.mpr (reached.unique gives)
  | cons value later =>
    obtain ⟨next, reached', rest⟩ := gives
    exact ⟨next, reaches_rested.mpr (reached.unique reached'), rest⟩

theorem Begins.of_rested {values : List α} {r : Option (α × σ)}
    (begins : (Side.rested r).Begins M step values) (reached : side.Reaches M step r) :
    side.Begins M step values := by
  cases values with
  | nil => exact trivial
  | cons value later =>
    obtain ⟨next, last, reached', rest⟩ := begins
    exact ⟨next, last, reaches_rested.mp reached' ▸ reached, rest⟩

theorem Begins.starts {s : σ} {values : List α} (begins : (pending s).Begins M step values) :
    ∃ last, Producer.Starts M step s values last := by
  cases values with
  | nil => exact ⟨s, .nil⟩
  | cons value later =>
    obtain ⟨next, last, reached, rest⟩ := begins
    exact ⟨last, .cons reached rest⟩

theorem Begins.head {values : List α} {r : Option (α × σ)} {P : α → Prop}
    (begins : (rested r).Begins M step values)
    (first : ∀ value next, r = some (value, next) → P value) : ∀ value ∈ values.head?, P value := by
  cases values with
  | nil => simp
  | cons value later =>
    obtain ⟨next, last, reached, -⟩ := begins
    simpa using first _ _ (reaches_rested.mp reached).symm

def Grounded (bound : Nat) (step : σ → Noted ω (Move ν σ α)) (sizes : Nat → Nat) :
    Side σ α → Prop
  | .pending s => Producer.Grounded bound step sizes s
  | .ready _ next => Producer.Grounded bound step sizes next
  | .ended => True

theorem Grounded.grow {bound : Nat} {sizes sizes' : Nat → Nat}
    (grounded : side.Grounded bound step sizes) (more : sizes ≤ sizes') :
    side.Grounded bound step sizes' := by
  cases side with
  | pending | ready => exact Producer.Grounded.grow grounded more
  | ended => exact trivial

theorem keeps_advance {bound : Nat} {sizes : Nat → Nat} {s : σ} {place : Side σ α → κ}
    {I : (Nat → Nat) → κ → Prop} (grounded : Producer.Grounded bound step sizes s)
    (inside : ∀ sizes', sizes ≤ sizes' → ∀ side : Side σ α, side.Grounded bound step sizes' →
      I sizes' (place side)) :
    ((step s).value.advance place : Move ν κ β).Keeps bound I sizes := by
  have keeps := grounded.keeps
  have here := inside sizes fun _ => Nat.le_refl _
  cases moved : (step s).value with
  | yield value next =>
    rw [moved] at keeps
    exact here (.ready value next) keeps
  | skip next =>
    rw [moved] at keeps
    exact here (.pending next) keeps
  | force node resume =>
    rw [moved] at keeps
    exact ⟨keeps.1, keeps.2.1, fun sizes' more q within =>
      inside sizes' more (.pending (resume q)) (keeps.2.2 sizes' more q within)⟩
  | done => exact here .ended trivial

end Side

namespace Producer

section Advance
variable {step : σ → Noted ω (Move ν σ α)} {big : κ → Noted ω (Move ν κ β)} {place : Side σ α → κ}

theorem advance_eq_skip {move : Move ν σ α} {next : κ} :
    (move.advance place : Move ν κ β) = .skip next ↔
      (∃ value s, move = .yield value s ∧ next = place (.ready value s)) ∨
      (∃ s, move = .skip s ∧ next = place (.pending s)) ∨
      (move = .done ∧ next = place .ended) := by
  cases move <;> grind [Move.advance]

theorem advance_eq_force {move : Move ν σ α} {node : Node} {resume : Sequence ν → κ} :
    (move.advance place : Move ν κ β) = .force node resume ↔
      ∃ before, move = .force node before ∧ resume = fun q => place (.pending (before q)) := by
  cases move <;> grind [Move.advance]

theorem reaches_advance {s : σ} {r : Option (β × κ)}
    (runs : ∀ s, (big (place (.pending s))).value = (step s).value.advance place) :
    Reaches M big (place (.pending s)) r ↔
      ∃ reached, Reaches M step s reached ∧ Reaches M big (place (Side.rested reached)) r := by
  constructor
  · intro reached
    generalize origin : place (.pending s) = state at reached
    induction reached generalizing s with
    | yield move | done move =>
      rw [← origin, runs] at move
      cases moved : (step s).value <;> rw [moved] at move <;> cases move
    | skip move later ih =>
      rw [← origin, runs] at move
      rcases advance_eq_skip.mp move with ⟨value, s, moved, rfl⟩ | ⟨s, moved, rfl⟩ | ⟨moved, rfl⟩
      · exact ⟨_, .yield moved, later⟩
      · obtain ⟨found, before, behind⟩ := ih rfl
        exact ⟨found, .skip moved before, behind⟩
      · exact ⟨_, .done moved, later⟩
    | force move follows later ih =>
      rw [← origin, runs] at move
      obtain ⟨resume, moved, rfl⟩ := advance_eq_force.mp move
      obtain ⟨found, before, behind⟩ := ih rfl
      exact ⟨found, .force moved follows before, behind⟩
  · intro found
    obtain ⟨found, before, behind⟩ := found
    induction before with
    | yield moved => exact .skip (by rw [runs, moved]; rfl) behind
    | done moved => exact .skip (by rw [runs, moved]; rfl) behind
    | skip moved later ih => exact .skip (by rw [runs, moved]; rfl) (ih behind)
    | force moved follows later ih => exact .force (by rw [runs, moved]; rfl) follows (ih behind)

theorem reaches_side (big : κ → Noted ω (Move ν κ β)) (place : Side σ α → κ) (side : Side σ α)
    {r : Option (β × κ)}
    (runs : ∀ s, (big (place (.pending s))).value = (step s).value.advance place) :
    Reaches M big (place side) r ↔
      ∃ reached, side.Reaches M step reached ∧ Reaches M big (place (Side.rested reached)) r := by
  cases side with
  | pending s => exact reaches_advance runs
  | ready value next =>
    constructor
    · exact fun reached => ⟨_, rfl, reached⟩
    · intro found
      obtain ⟨found, rfl, reached⟩ := found
      exact reached
  | ended =>
    constructor
    · exact fun reached => ⟨_, rfl, reached⟩
    · intro found
      obtain ⟨found, rfl, reached⟩ := found
      exact reached

end Advance

end Producer

end DemandLex
