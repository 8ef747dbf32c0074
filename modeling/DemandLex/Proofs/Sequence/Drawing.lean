import DemandLex.Proofs.Sequence.Demand
import DemandLex.Proofs.Sequence.Grounding
import DemandLex.Proofs.Sequence.ListFunctions

/-! What the operators ask for on the way to their elements. Each moves with its source and asks
for just what the source asks for: an operator that makes its elements from those of a source has
asked for nothing behind the last of these. -/

namespace DemandLex.Producer

variable {ω ν σ τ α β : Type} {M : Meaning ν} {asked : List Node}

theorem moves_ofSequence {s t : Sequence ν} {cells : List (Cell ν)} (walks : M.Walks s cells t) :
    Moves M (ofSequence (ω := ω) s).step (.here s) (cells.map Cell.node) (cells.map Cell.value)
      (.here t) := by
  suffices Moves M (reading (ω := ω)) (.here s) (cells.map Cell.node) (cells.map Cell.value)
      (.here t) from this
  induction walks with
  | nil => exact .nil
  | cons follows tail ih => exact .yield rfl (.force rfl follows ih)

section ScanFilter
variable {p : Producer ω ν α} {step : τ → α → Noted ω (τ × Option β)} {start carried : τ}
  {s last : p.State} {values : List α}

def carriedBehind (step : τ → α → Noted ω (τ × Option β)) (carried : τ) (values : List α) : τ :=
  values.foldl (fun carried value => (step carried value).value.1) carried

theorem carriedBehind_cons {value : α} {carried' : τ} {output : Option β}
    (given : (step carried value).value = (carried', output)) :
    carriedBehind step carried (value :: values) = carriedBehind step carried' values := by
  rw [carriedBehind, List.foldl_cons, given, carriedBehind]

theorem scanned_place {output : β} {count : Nat}
    (there : (scanned step carried values)[count]? = some output) :
    ∃ before value later after, values = before ++ value :: later ∧
      (scanned step carried before).length = count ∧
      (step (carriedBehind step carried before) value).value = (after, some output) := by
  induction values generalizing carried count with
  | nil => simp [scanned] at there
  | cons value values ih =>
    rcases given : (step carried value).value with ⟨next, _ | first⟩
    · rw [scanned_none given] at there
      obtain ⟨before, last, later, after, rfl, place, given'⟩ := ih there
      exact ⟨value :: before, last, later, after, rfl, (scanned_none given).symm ▸ place,
        (carriedBehind_cons given).symm ▸ given'⟩
    · rw [scanned_some given] at there
      cases count with
      | zero =>
        cases there
        exact ⟨[], value, values, next, rfl, rfl, given⟩
      | succ count =>
        obtain ⟨before, last, later, after, rfl, place, given'⟩ := ih there
        refine ⟨value :: before, last, later, after, rfl, ?_, (carriedBehind_cons given).symm ▸ given'⟩
        rw [scanned_some given, List.length_cons, place]

/-- A scan moves with its source, whether or not it has an output for an element. -/
theorem Moves.scanFilter (moves : Moves M p.step s asked values last) :
    Moves M (p.scanFilter start step).step (s, carried) asked (scanned step carried values)
      (last, carriedBehind step carried values) := by
  induction moves generalizing carried with
  | nil => exact .nil
  | @yield s next last value values asked move later ih =>
    cases given : (step carried value).value with
    | mk carried' output =>
      rw [carriedBehind_cons given]
      cases output with
      | none =>
        rw [scanned_none given]
        exact .skip (scanFilter_absorbed move given) ih
      | some output =>
        rw [scanned_some given]
        exact .yield (scanFilter_output move given) ih
  | skip move later ih => exact .skip (scanFilter_skip move) ih
  | force move follows later ih => exact .force (scanFilter_force move) follows ih

theorem scanned_filterMap {f : α → Option β} (values : List α) :
    scanned (fun (_ : Unit) value => (pure ((), f value) : Noted ω (Unit × Option β))) () values =
      values.filterMap f := by
  induction values with
  | nil => rfl
  | cons value values ih =>
    cases output : f value with
    | none => rw [List.filterMap_cons_none output, ← ih, scanned_none (by rw [output]; rfl)]
    | some b => rw [List.filterMap_cons_some output, ← ih, scanned_some (by rw [output]; rfl)]

theorem Moves.map {f : α → Noted ω β} (moves : Moves M p.step s asked values last) :
    Moves M (p.map f).step (s, ()) asked (values.map fun value => (f value).value)
      (last, ()) := by
  rw [← scanned_map]
  exact moves.scanFilter

theorem Moves.filterMap {f : α → Option β} (moves : Moves M p.step s asked values last) :
    Moves M (p.filterMap f).step (s, ()) asked (values.filterMap f) (last, ()) := by
  rw [← scanned_filterMap (ω := ω)]
  exact moves.scanFilter

theorem Brings.map {f : α → Noted ω β} {next : p.State} {value : α}
    (brings : Brings M p.step s asked value next) :
    Brings M (p.map f).step (s, ()) asked (f value).value (next, ()) := by
  induction brings with
  | yield move => exact .yield (scanFilter_output move rfl)
  | skip move later ih => exact .skip (scanFilter_skip move) ih
  | force move follows later ih => exact .force (scanFilter_force move) follows ih

theorem Draws.map {f : α → Noted ω β} (draws : Draws M p.step s asked values last) :
    Draws M (p.map f).step (s, ()) asked (values.map fun value => (f value).value) (last, ()) := by
  induction draws with
  | nil => exact .nil
  | cons first later ih => exact .cons first.map ih

theorem silent_map {mine : ω → Bool} {f : α → Noted ω β} (source : Silent mine p.step)
    (each : ∀ value, (f value).Silent mine) : Silent mine (p.map f).step :=
  silent_scanFilter source fun _ value => (each value).bind fun _ => Noted.silent_pure

theorem silent_filterMap {mine : ω → Bool} {f : α → Option β} (source : Silent mine p.step) :
    Silent mine (p.filterMap f).step :=
  silent_scanFilter source fun _ _ => Noted.silent_pure

end ScanFilter

section Append
variable {p q : Producer ω ν α}

theorem Moves.lift {step : σ → Noted ω (Move ν σ α)} {step' : τ → Noted ω (Move ν τ α)}
    {s last : σ} {values : List α} (place : σ → τ)
    (lifts : ∀ s, (step s).value ≠ .done → (step' (place s)).value = (step s).value.lift place)
    (moves : Moves M step s asked values last) :
    Moves M step' (place s) asked values (place last) := by
  induction moves with
  | nil => exact .nil
  | yield move later ih => exact .yield (by rw [lifts _ (by simp [move]), move]; rfl) ih
  | skip move later ih => exact .skip (by rw [lifts _ (by simp [move]), move]; rfl) ih
  | force move follows later ih =>
    exact .force (by rw [lifts _ (by simp [move]), move]; rfl) follows ih

theorem silent_ofList {mine : ω → Bool} {items : List α} :
    Silent mine (ofList (ν := ν) items).step :=
  silent_play fun rest => by cases rest <;> exact Noted.silent_pure

end Append

section Flatten
variable {p : Producer ω ν (List α)} {outer last : p.State} {runs : List (List α)}

theorem flatten_inner {rest : List α} (outer : p.State)
    (some_move : (playList (ω := ω) (ν := ν) rest).value ≠ .done) :
    ((p.flatten playList).step (outer, some rest)).value =
      (playList (ω := ω) (ν := ν) rest).value.lift fun next => (outer, some next) := by
  cases rest with
  | nil => exact absurd rfl some_move
  | cons value rest => rfl

theorem moves_playList (front back : List α) :
    Moves M (playList (ω := ω)) (front ++ back) [] front back := by
  induction front with
  | nil => exact .nil
  | cons value front ih => exact .yield rfl ih

theorem moves_inner (outer : p.State) (front back : List α) :
    Moves M (p.flatten playList).step (outer, some (front ++ back)) [] front (outer, some back) :=
  (moves_playList front back).lift (fun rest => (outer, some rest)) fun _ => flatten_inner outer

theorem Moves.flatten (moves : Moves M p.step outer asked runs last) :
    Moves M (p.flatten playList).step (outer, none) asked runs.flatten (last, none) := by
  induction moves with
  | nil => exact .nil
  | @yield outer next last run runs asked move later ih =>
    have begins : ((p.flatten playList).step (outer, none)).value = .skip (next, some run) := by
      simp [Producer.flatten, move]
    have ends : ((p.flatten playList).step (next, some [])).value = .skip (next, none) := rfl
    have inner := moves_inner (M := M) next run []
    rw [List.append_nil] at inner
    exact .skip begins (inner.append (.skip ends ih))
  | skip move later ih => exact .skip (by simp [Producer.flatten, move]) ih
  | force move follows later ih => exact .force (by simp [Producer.flatten, move]; rfl) follows ih

theorem grounded_playList {bound : Nat} {sizes : Nat → Nat} {rest : List α} :
    Grounded bound (playList (ω := ω) (ν := ν)) sizes rest := by
  apply grounded_of_alone
  rintro (_ | ⟨value, rest⟩) node resume asked
  · cases asked
  · cases asked

theorem silent_playList {mine : ω → Bool} :
    Silent mine (playList (ω := ω) (ν := ν) (α := α)) := by
  rintro (_ | ⟨value, rest⟩)
  · exact Noted.silent_pure
  · exact Noted.silent_pure

end Flatten

end DemandLex.Producer
