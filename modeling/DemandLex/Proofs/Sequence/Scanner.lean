import DemandLex.Proofs.Sequence.Reaction

/-! What a scan carries, whatever its source, and producers that differ in how they keep their state
only. A scan of a scan moves as one scan does: on every element it runs the first step and then, on its
output, the second. -/

namespace DemandLex

variable {ω ν α β γ : Type} {M : Meaning ν}

/-- A step that carries a state, and may have an output for an element. -/
structure Scanner (ω α β : Type) : Type 1 where
  State : Type
  start : State
  step : State → α → Noted ω (State × Option β)

namespace Scanner

def andThen (g : Scanner ω α β) (h : Scanner ω β γ) : Scanner ω α γ where
  State := g.State × h.State
  start := (g.start, h.start)
  step carried value := do
    match ← g.step carried.1 value with
    | (first, none) => pure ((first, carried.2), none)
    | (first, some output) => do
      let (second, last) ← h.step carried.2 output
      pure ((first, second), last)

def fuse (g : Scanner ω ν ν) : List (Scanner ω ν ν) → Scanner ω ν ν
  | [] => g
  | h :: later => (g.andThen h).fuse later

end Scanner

theorem Move.lift_lift {σ τ ρ : Type} {place : σ → τ} {place' : τ → ρ} {move : Move ν σ α} :
    (move.lift place).lift place' = move.lift (place' ∘ place) := by
  cases move <;> rfl

theorem Move.lift_id {σ : Type} {move : Move ν σ α} : move.lift id = move := by
  cases move <;> rfl

namespace Producer

def through (p : Producer ω ν α) (g : Scanner ω α β) : Producer ω ν β := p.scanFilter g.start g.step

/-- Two producers that make the same moves, on states that correspond to each other. -/
structure Alike (p q : Producer ω ν α) where
  place : p.State → q.State
  back : q.State → p.State
  back_place (s : p.State) : back (place s) = s
  place_back (t : q.State) : place (back t) = t
  state : place p.state = q.state
  notes (s : p.State) : (q.step (place s)).notes = (p.step s).notes
  moves (s : p.State) : (q.step (place s)).value = (p.step s).value.lift place

namespace Alike
variable {p q : Producer ω ν α}

def refl (p : Producer ω ν α) : p.Alike p where
  place := id
  back := id
  back_place _ := rfl
  place_back _ := rfl
  state := rfl
  notes _ := rfl
  moves _ := Move.lift_id.symm

def symm (alike : p.Alike q) : q.Alike p where
  place := alike.back
  back := alike.place
  back_place := alike.place_back
  place_back := alike.back_place
  state := by rw [← alike.state, alike.back_place]
  notes t := by rw [← alike.notes, alike.place_back]
  moves t := by
    have inverse : alike.back ∘ alike.place = id := funext alike.back_place
    have moves := alike.moves (alike.back t)
    rw [alike.place_back] at moves
    rw [moves, Move.lift_lift, inverse, Move.lift_id]

theorem comes (alike : p.Alike q) {s : p.State} {effects : List (Effect ω)}
    {r : Option (α × p.State)} (comes : Comes M p.step s effects r) :
    Comes M q.step (alike.place s) effects (r.map fun found => (found.1, alike.place found.2)) :=
  comes.place alike.place alike.notes alike.moves

theorem comes_of_back (alike : p.Alike q) {t : q.State} {effects : List (Effect ω)}
    {r : Option (α × p.State)} (comes : Comes M p.step (alike.back t) effects r) :
    Comes M q.step t effects (r.map fun found => (found.1, alike.place found.2)) := by
  have placed := alike.comes comes
  rwa [alike.place_back] at placed

theorem comes_state (alike : p.Alike q) {effects : List (Effect ω)} {r : Option (α × p.State)}
    (comes : Comes M p.step p.state effects r) :
    Comes M q.step q.state effects (r.map fun found => (found.1, alike.place found.2)) :=
  alike.state ▸ alike.comes comes

def fused (p : Producer ω ν α) (g : Scanner ω α β) (h : Scanner ω β γ) :
    ((p.through g).through h).Alike (p.through (g.andThen h)) where
  place s := (s.1.1, (s.1.2, s.2))
  back t := ((t.1, t.2.1), t.2.2)
  back_place _ := rfl
  place_back _ := rfl
  state := rfl
  notes := by
    rintro ⟨⟨s, first⟩, second⟩
    cases move : (p.step s).value with
    | yield value next =>
      rcases given : (g.step first value).value with ⟨first', _ | output⟩
      · simp [through, scanFilter, Scanner.andThen, move, given]
      · rcases given' : (h.step second output).value with ⟨second', _ | last⟩ <;>
          simp [through, scanFilter, Scanner.andThen, move, given, given']
    | skip | force | done => simp [through, scanFilter, move]
  moves := by
    rintro ⟨⟨s, first⟩, second⟩
    cases move : (p.step s).value with
    | yield value next =>
      rcases given : (g.step first value).value with ⟨first', _ | output⟩
      · simp [through, scanFilter, Scanner.andThen, move, given, Move.lift]
      · rcases given' : (h.step second output).value with ⟨second', _ | last⟩ <;>
          simp [through, scanFilter, Scanner.andThen, move, given, given', Move.lift]
    | skip | force | done => simp [through, scanFilter, move, Move.lift]

end Alike

end Producer

end DemandLex
