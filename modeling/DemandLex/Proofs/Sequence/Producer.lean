import DemandLex.Proofs.Sequence.Extension

/-! What the basic producers give. -/

namespace DemandLex.Producer

variable {ω ν σ τ α β : Type} {M : Meaning ν}

section Starts
variable {step : σ → Noted ω (Move ν σ α)} {s s' last : σ} {values : List α}

theorem Starts.congr (start : Starts M step s values last) (some_value : values ≠ [])
    (same : ∀ r, Reaches M step s r → Reaches M step s' r) : Starts M step s' values last := by
  cases start with
  | nil => contradiction
  | cons first later => exact .cons (same _ first) later

theorem Gives.congr (gives : Gives M step s values)
    (same : ∀ r, Reaches M step s r → Reaches M step s' r) : Gives M step s' values := by
  cases values with
  | nil => exact gives_nil.mpr (same _ (gives_nil.mp gives))
  | cons value values =>
    obtain ⟨next, first, later⟩ := gives_cons.mp gives
    exact gives_cons.mpr ⟨next, same _ first, later⟩

theorem Gives.reaches (gives : Gives M step s values) : ∃ r, Reaches M step s r := by
  cases values with
  | nil => exact ⟨none, gives_nil.mp gives⟩
  | cons value values =>
    obtain ⟨next, first, -⟩ := gives_cons.mp gives
    exact ⟨_, first⟩

end Starts

section OfSequence
variable {s t : Sequence ν} {values : List ν}

def reading : Reading ν → Noted ω (Move ν (Reading ν) ν) := fun r => pure r.step

theorem reaches_after {node : Node} {q : Sequence ν} {r : Option (ν × Reading ν)}
    (follows : M.after node = some q) :
    Reaches M (reading (ω := ω)) (.after node) r ↔ Reaches M (reading (ω := ω)) (.here q) r :=
  reaches_force rfl follows

theorem gives_reading (holds : M.Holds s values) :
    Gives M (reading (ω := ω)) (.here s) values := by
  induction holds with
  | nil => exact gives_nil.mpr (.done rfl)
  | cons follows tail ih =>
    exact gives_cons.mpr ⟨_, .yield rfl, ih.congr fun r => (reaches_after follows).mpr⟩

theorem begins_of_starts_reading {last : Reading ν}
    (start : Starts M (reading (ω := ω)) (.here s) values last) : M.Begins s values := by
  induction values generalizing s with
  | nil => exact .nil
  | cons value values ih =>
    cases start with
    | cons first later =>
      cases s with
      | none => cases (reaches_done rfl).mp first
      | some cell =>
        cases (reaches_yield rfl).mp first
        cases values with
        | nil => exact .one
        | cons second values =>
          cases later with
          | cons second' later' =>
            cases second' with
            | force move follows later'' =>
              cases move
              exact .cons follows (ih (.cons later'' later'))
            | yield move | skip move => cases move

theorem grounded_reading {bound : Nat} {sizes : Nat → Nat} (within : s.Within bound sizes) :
    Grounded bound (reading (ω := ω)) sizes (.here s) := by
  refine ⟨fun sizes r => match r with
    | .here s => s.Within bound sizes
    | .after node => node.spine < bound ∧ node.index < sizes node.spine, within, ?_⟩
  intro sizes r inside
  cases r with
  | here s =>
    cases s with
    | none => exact trivial
    | some cell => exact inside cell rfl
  | after node => exact ⟨inside.1, inside.2, fun _ _ _ there => there⟩

end OfSequence

section OfList

theorem alone_unfold {seed : σ} {step : σ → Noted ω (Option (α × σ))} (s : σ) (node : Node)
    (resume : Sequence ν → σ) :
    (((unfold seed step : Producer ω ν α).step s).value) ≠ .force node resume := by
  intro asked
  simp only [unfold, play, Noted.value_bind] at asked
  split at asked <;> cases asked

theorem gives_ofList (items : List α) :
    Gives M (ofList items : Producer ω ν α).step items items := by
  suffices ∀ rest, Gives M (ofList items : Producer ω ν α).step rest rest from this items
  intro rest
  induction rest with
  | nil => exact gives_nil.mpr (.done rfl)
  | cons item rest ih => exact gives_cons.mpr ⟨rest, .yield rfl, ih⟩

end OfList

section ScanFilter
variable {p : Producer ω ν α} {step : σ → α → Noted ω (σ × Option β)} {start carried carried' : σ}
  {s s' : p.State}

/-- The outputs of a step that carries a state and may give an output, over a list. -/
def scanned (step : σ → α → Noted ω (σ × Option β)) : σ → List α → List β
  | _, [] => []
  | carried, a :: later =>
    match (step carried a).value with
    | (next, some output) => output :: scanned step next later
    | (next, none) => scanned step next later

theorem scanned_some {a : α} {later : List α} {output : β}
    (given : (step carried a).value = (carried', some output)) :
    scanned step carried (a :: later) = output :: scanned step carried' later := by
  simp only [scanned, given]

theorem scanned_none {a : α} {later : List α} (given : (step carried a).value = (carried', none)) :
    scanned step carried (a :: later) = scanned step carried' later := by
  simp only [scanned, given]

theorem scanned_cons {a : α} {later : List α} {output : Option β}
    (given : (step carried a).value = (carried', output)) :
    scanned step carried (a :: later) = output.toList ++ scanned step carried' later := by
  cases output with
  | none => exact scanned_none given
  | some output => exact scanned_some given

section Moves
variable {next : p.State} {value : α}

theorem scanFilter_skip (move : (p.step s).value = .skip next) :
    ((p.scanFilter start step).step (s, carried)).value = .skip (next, carried) := by
  simp only [scanFilter, Noted.value_bind, move, Noted.value_pure]

theorem scanFilter_force {node : Node} {resume : Sequence ν → p.State}
    (move : (p.step s).value = .force node resume) :
    ((p.scanFilter start step).step (s, carried)).value =
      .force node fun q => (resume q, carried) := by
  simp only [scanFilter, Noted.value_bind, move, Noted.value_pure]

theorem scanFilter_done (move : (p.step s).value = .done) :
    ((p.scanFilter start step).step (s, carried)).value = .done := by
  simp only [scanFilter, Noted.value_bind, move, Noted.value_pure]

theorem scanFilter_output {output : β} (move : (p.step s).value = .yield value next)
    (given : (step carried value).value = (carried', some output)) :
    ((p.scanFilter start step).step (s, carried)).value = .yield output (next, carried') := by
  simp only [scanFilter, Noted.value_bind, move, given, Noted.value_pure]

theorem scanFilter_absorbed (move : (p.step s).value = .yield value next)
    (given : (step carried value).value = (carried', none)) :
    ((p.scanFilter start step).step (s, carried)).value = .skip (next, carried') := by
  simp only [scanFilter, Noted.value_bind, move, given, Noted.value_pure]

end Moves

theorem scanFilter_cases (p : Producer ω ν α) (start : σ) (step : σ → α → Noted ω (σ × Option β))
    (s : p.State) (carried : σ) :
    (∃ value next carried' output, (p.step s).value = .yield value next ∧
      (step carried value).value = (carried', some output) ∧
      ((p.scanFilter start step).step (s, carried)).value = .yield output (next, carried')) ∨
    (∃ value next carried', (p.step s).value = .yield value next ∧
      (step carried value).value = (carried', none) ∧
      ((p.scanFilter start step).step (s, carried)).value = .skip (next, carried')) ∨
    (∃ next, (p.step s).value = .skip next ∧
      ((p.scanFilter start step).step (s, carried)).value = .skip (next, carried)) ∨
    (∃ node resume, (p.step s).value = .force node resume ∧
      ((p.scanFilter start step).step (s, carried)).value =
        .force node fun q => (resume q, carried)) ∨
    ((p.step s).value = .done ∧ ((p.scanFilter start step).step (s, carried)).value = .done) := by
  cases move : (p.step s).value with
  | yield value next =>
    cases given : (step carried value).value with
    | mk carried' result =>
      cases result with
      | some output =>
        exact Or.inl ⟨value, next, carried', output, rfl, given, scanFilter_output move given⟩
      | none =>
        exact Or.inr (Or.inl ⟨value, next, carried', rfl, given, scanFilter_absorbed move given⟩)
  | skip next => exact Or.inr (Or.inr (Or.inl ⟨next, rfl, scanFilter_skip move⟩))
  | force node resume =>
    exact Or.inr (Or.inr (Or.inr (Or.inl ⟨node, resume, rfl, scanFilter_force move⟩)))
  | done => exact Or.inr (Or.inr (Or.inr (Or.inr ⟨rfl, scanFilter_done move⟩)))

theorem grounded_scanFilter {bound : Nat} {sizes : Nat → Nat}
    (grounded : Grounded bound p.step sizes s) :
    Grounded bound (p.scanFilter start step).step sizes (s, carried) := by
  refine ⟨fun sizes state => Grounded bound p.step sizes state.1, grounded, ?_⟩
  intro sizes state inside
  obtain ⟨s, carried⟩ := state
  have keeps := inside.keeps
  rcases scanFilter_cases p start step s carried with
    ⟨value, next, carried', output, move, -, moved⟩ | ⟨value, next, carried', move, -, moved⟩ |
    ⟨next, move, moved⟩ | ⟨node, resume, move, moved⟩ | ⟨move, moved⟩
  all_goals
    rw [move] at keeps
    rw [moved]
    exact keeps

theorem reaches_scanFilter_end (stop : Reaches M p.step s none) :
    Reaches M (p.scanFilter start step).step (s, carried) none := by
  generalize same : (none : Option (α × p.State)) = r at stop
  induction stop with
  | yield move => cases same
  | done move => exact .done (scanFilter_done move)
  | skip move later ih => exact .skip (scanFilter_skip move) (ih same)
  | force move follows later ih => exact .force (scanFilter_force move) follows (ih same)

theorem reaches_scanFilter_output {value : α} {output : β} {next : p.State}
    (reached : Reaches M p.step s (some (value, next)))
    (given : (step carried value).value = (carried', some output)) :
    Reaches M (p.scanFilter start step).step (s, carried) (some (output, (next, carried'))) := by
  generalize same : some (value, next) = r at reached
  induction reached with
  | yield move =>
    cases same
    exact .yield (scanFilter_output move given)
  | done move => cases same
  | skip move later ih => exact .skip (scanFilter_skip move) (ih same)
  | force move follows later ih => exact .force (scanFilter_force move) follows (ih same)

theorem reaches_scanFilter_absorbed {value : α} {next : p.State}
    {r : Option (β × (p.State × σ))} (reached : Reaches M p.step s (some (value, next)))
    (given : (step carried value).value = (carried', none))
    (later : Reaches M (p.scanFilter start step).step (next, carried') r) :
    Reaches M (p.scanFilter start step).step (s, carried) r := by
  generalize same : some (value, next) = reach at reached
  induction reached with
  | yield move =>
    cases same
    exact .skip (scanFilter_absorbed move given) later
  | done move => cases same
  | skip move before ih => exact .skip (scanFilter_skip move) (ih same)
  | force move follows before ih => exact .force (scanFilter_force move) follows (ih same)

theorem gives_scanFilter {values : List α} (gives : Gives M p.step s values) :
    Gives M (p.scanFilter start step).step (s, carried) (scanned step carried values) := by
  induction values generalizing s carried with
  | nil => exact gives_nil.mpr (reaches_scanFilter_end (gives_nil.mp gives))
  | cons value values ih =>
    obtain ⟨next, first, later⟩ := gives_cons.mp gives
    cases given : (step carried value).value with
    | mk carried' output =>
      cases output with
      | none =>
        rw [scanned_none given]
        exact (ih later).congr fun r => reaches_scanFilter_absorbed first given
      | some output =>
        rw [scanned_some given]
        exact gives_cons.mpr ⟨_, reaches_scanFilter_output first given, ih later⟩

theorem Reaches.of_scanFilter {output : β}
    (reached : Reaches M (p.scanFilter start step).step (s, carried)
      (some (output, (s', carried')))) :
    ∃ values, values ≠ [] ∧ Starts M p.step s values s' ∧
      ∀ later, scanned step carried (values ++ later) = output :: scanned step carried' later := by
  generalize origin : ((s, carried) : (p.scanFilter start step).State) = state at reached
  generalize target : (some (output, (s', carried')) : Option (β × (p.scanFilter start step).State)) =
    r at reached
  induction reached generalizing s carried with
  | yield move =>
    cases origin
    cases target
    rcases scanFilter_cases p start step s carried with
      ⟨value, next, carried'', output', moved, given, same⟩ | ⟨value, next, carried'', -, -, same⟩ |
      ⟨next, -, same⟩ | ⟨node, resume, -, same⟩ | ⟨-, same⟩ <;> rw [same] at move <;> cases move
    exact ⟨[value], by simp, .cons (.yield moved) .nil, fun later => scanned_some given⟩
  | done => cases target
  | skip move later ih =>
    cases origin
    rcases scanFilter_cases p start step s carried with
      ⟨value, next, carried'', output', -, -, same⟩ | ⟨value, next, carried'', moved, given, same⟩ |
      ⟨next, moved, same⟩ | ⟨node, resume, -, same⟩ | ⟨-, same⟩ <;> rw [same] at move <;> cases move
    · obtain ⟨values, some_value, start, outputs⟩ := ih rfl target
      refine ⟨value :: values, by simp, .cons (.yield moved) start, ?_⟩
      intro later
      rw [List.cons_append, scanned_none given, outputs later]
    · obtain ⟨values, some_value, start, outputs⟩ := ih rfl target
      exact ⟨values, some_value, start.congr some_value fun r => (reaches_skip moved).mpr, outputs⟩
  | force move follows later ih =>
    cases origin
    rcases scanFilter_cases p start step s carried with
      ⟨value, next, carried'', output', -, -, same⟩ | ⟨value, next, carried'', -, -, same⟩ |
      ⟨next, -, same⟩ | ⟨node, resume, moved, same⟩ | ⟨-, same⟩ <;> rw [same] at move <;> cases move
    obtain ⟨values, some_value, start, outputs⟩ := ih rfl target
    exact ⟨values, some_value,
      start.congr some_value fun r => (reaches_force moved follows).mpr, outputs⟩

theorem Starts.append {step : σ → Noted ω (Move ν σ α)} {s middle last : σ}
    {front back : List α} (first : Starts M step s front middle)
    (second : Starts M step middle back last) : Starts M step s (front ++ back) last := by
  induction first with
  | nil => exact second
  | cons reached later ih => exact .cons reached (ih second)

theorem Starts.of_scanFilter {outputs : List β} {last : p.State × σ}
    (started : Starts M (p.scanFilter start step).step (s, carried) outputs last) :
    ∃ values, Starts M p.step s values last.1 ∧ scanned step carried values = outputs := by
  induction outputs generalizing s carried with
  | nil =>
    cases started
    exact ⟨[], .nil, rfl⟩
  | cons output outputs ih =>
    cases started with
    | @cons _ next _ _ _ first later =>
      obtain ⟨s', carried'⟩ := next
      obtain ⟨values, -, begun, same⟩ := first.of_scanFilter
      obtain ⟨values', begun', same'⟩ := ih later
      exact ⟨values ++ values', begun.append begun', by rw [same, same']⟩

end ScanFilter

end DemandLex.Producer
