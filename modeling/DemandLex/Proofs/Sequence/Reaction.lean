import DemandLex.Proofs.Sequence.Exposure

/-! How a scan follows its source. It lets the source come to an element, runs its step on it once,
and either passes on the output or lets the source come to the next one. -/

namespace DemandLex

open Effect

variable {ω ν ρ τ α β : Type} {M : Meaning ν}

def Move.resting {σ : Type} : Option (α × σ) → Move ν σ α
  | some (value, next) => .yield value next
  | none => .done

namespace Producer

/-- What a step with a state does from where its source has come to rest: it gives an output, or it
absorbs elements until one has an output or the source ends. -/
inductive Reacts (M : Meaning ν) (source : ρ → Noted ω (Move ν ρ α))
    (step : τ → α → Noted ω (τ × Option β)) :
    Option (α × ρ) → τ → List (Effect ω) → Option (β × (ρ × τ)) → Prop
  | stop {carried : τ} : Reacts M source step none carried [] none
  | give {value : α} {next : ρ} {carried carried' : τ} {output : β}
      (given : (step carried value).value = (carried', some output)) :
      Reacts M source step (some (value, next)) carried (noting (step carried value).notes)
        (some (output, (next, carried')))
  | absorb {value : α} {next : ρ} {carried carried' : τ} {found : Option (α × ρ)}
      {effects effects' : List (Effect ω)} {r : Option (β × (ρ × τ))}
      (given : (step carried value).value = (carried', none))
      (comes : Comes M source next effects found)
      (later : Reacts M source step found carried' effects' r) :
      Reacts M source step (some (value, next)) carried
        (noting (step carried value).notes ++ (effects ++ effects')) r

section ScanFilter
variable {p : Producer ω ν α} {start carried : τ} {step : τ → α → Noted ω (τ × Option β)}
  {s : p.State} {effects before behind : List (Effect ω)} {found : Option (α × p.State)}
  {r : Option (β × (p.State × τ))}

section Notes

theorem notes_scanFilter_yield (start : τ) {value : α} {next : p.State}
    (move : (p.step s).value = .yield value next) :
    ((p.scanFilter start step).step (s, carried)).notes =
      (p.step s).notes ++ (step carried value).notes := by
  rcases given : (step carried value).value with ⟨carried', _ | output⟩ <;>
    simp [scanFilter, move, given]

theorem notes_scanFilter_other (start carried : τ) (step : τ → α → Noted ω (τ × Option β))
    (quiet : ∀ value next, (p.step s).value ≠ .yield value next) :
    ((p.scanFilter start step).step (s, carried)).notes = (p.step s).notes := by
  cases move : (p.step s).value with
  | yield value next => exact absurd move (quiet value next)
  | skip | force | done => simp [scanFilter, move]

end Notes

theorem Comes.scanFilter (comes : Comes M p.step s before found)
    (rests : ∀ last : p.State, (p.step last).value = Move.resting found →
      Comes M (p.scanFilter start step).step (last, carried) (noting (p.step last).notes ++ behind) r) :
    Comes M (p.scanFilter start step).step (s, carried) (before ++ behind) r := by
  induction comes with
  | @yield last next value move => exact rests last move
  | @done last move => exact rests last move
  | skip move later ih =>
    rw [← notes_scanFilter_other start carried step (by simp [move]), List.append_assoc]
    exact .skip (scanFilter_skip move) (ih rests)
  | force move follows later ih =>
    rw [← notes_scanFilter_other start carried step (by simp [move]), List.append_assoc]
    exact .force (scanFilter_force move) follows (ih rests)

theorem Reacts.comes (reacts : Reacts M p.step step found carried behind r)
    (comes : Comes M p.step s before found) :
    Comes M (p.scanFilter start step).step (s, carried) (before ++ behind) r := by
  induction reacts generalizing s before with
  | stop =>
    refine comes.scanFilter fun last move => ?_
    rw [List.append_nil,
      ← notes_scanFilter_other start _ step (by simp [move, Move.resting])]
    exact .done (scanFilter_done move)
  | give given =>
    refine comes.scanFilter fun last move => ?_
    rw [← noting_append, ← notes_scanFilter_yield start move]
    exact .yield (scanFilter_output move given)
  | absorb given comes' later ih =>
    refine comes.scanFilter fun last move => ?_
    rw [← List.append_assoc, ← noting_append, ← notes_scanFilter_yield start move]
    exact .skip (scanFilter_absorbed move given) (ih comes')

theorem exists_reacts {s' : p.State} {first : List (Effect ω)}
    (splits : ∃ before found behind, Comes M p.step s' before found ∧
      Reacts M p.step step found carried behind r ∧ effects = before ++ behind)
    (moves : ∀ later found, Comes M p.step s' later found →
      Comes M p.step s (first ++ later) found) :
    ∃ before found behind, Comes M p.step s before found ∧
      Reacts M p.step step found carried behind r ∧ first ++ effects = before ++ behind := by
  obtain ⟨before, found, behind, comes, reacts, rfl⟩ := splits
  exact ⟨_, found, behind, moves _ _ comes, reacts, (List.append_assoc ..).symm⟩

theorem comes_scanFilter :
    Comes M (p.scanFilter start step).step (s, carried) effects r ↔
      ∃ before found behind, Comes M p.step s before found ∧
        Reacts M p.step step found carried behind r ∧ effects = before ++ behind := by
  constructor
  · intro comes
    generalize origin : ((s, carried) : (p.scanFilter start step).State) = state at comes
    induction comes generalizing s carried with
    | yield move =>
      cases origin
      rcases scanFilter_cases p start step s carried with
        ⟨value, next, carried', output, moved, given, same⟩ | ⟨_, _, _, -, -, same⟩ |
        ⟨_, -, same⟩ | ⟨_, _, -, same⟩ | ⟨-, same⟩ <;> rw [same] at move <;> cases move
      rw [notes_scanFilter_yield start moved, noting_append]
      exact ⟨_, _, _, .yield moved, .give given, rfl⟩
    | done move =>
      cases origin
      rcases scanFilter_cases p start step s carried with
        ⟨_, _, _, _, -, -, same⟩ | ⟨_, _, _, -, -, same⟩ | ⟨_, -, same⟩ | ⟨_, _, -, same⟩ |
        ⟨moved, same⟩ <;> rw [same] at move <;> cases move
      rw [notes_scanFilter_other start _ step (by simp [moved])]
      exact ⟨_, none, [], .done moved, .stop, (List.append_nil _).symm⟩
    | skip move later ih =>
      cases origin
      rcases scanFilter_cases p start step s carried with
        ⟨_, _, _, _, -, -, same⟩ | ⟨value, next, carried', moved, given, same⟩ |
        ⟨next, moved, same⟩ | ⟨_, _, -, same⟩ | ⟨-, same⟩ <;> rw [same] at move <;> cases move
      · obtain ⟨before, found, behind, comes, reacts, rfl⟩ := ih rfl
        rw [notes_scanFilter_yield start moved, noting_append, List.append_assoc]
        exact ⟨_, _, _, .yield moved, .absorb given comes reacts, rfl⟩
      · rw [notes_scanFilter_other start _ step (by simp [moved])]
        exact exists_reacts (ih rfl) fun _ _ => .skip moved
    | force move follows later ih =>
      cases origin
      rcases scanFilter_cases p start step s carried with
        ⟨_, _, _, _, -, -, same⟩ | ⟨_, _, _, -, -, same⟩ | ⟨_, -, same⟩ |
        ⟨node, resume, moved, same⟩ | ⟨-, same⟩ <;> rw [same] at move <;> cases move
      rw [notes_scanFilter_other start _ step (by simp [moved]), List.append_cons]
      refine exists_reacts (ih rfl) fun later found comes => ?_
      rw [← List.append_cons]
      exact .force moved follows comes
  · rintro ⟨before, found, behind, comes, reacts, rfl⟩
    exact reacts.comes comes

end ScanFilter

end Producer

end DemandLex
