import DemandLex.Proofs.Sequence.Operators
import Mathlib.Data.List.Destutter

/-! The operators that feed their elements to a step are the list functions that they are named
after. -/

namespace DemandLex.Producer

variable {ω ν σ τ α β γ : Type} {M : Meaning ν}

section Scanned
variable {carried : τ}

theorem scanned_map {f : α → Noted ω β} (values : List α) :
    scanned (fun (_ : Unit) value => do
        let output ← f value
        pure ((), some output)) () values = values.map fun value => (f value).value := by
  induction values with
  | nil => rfl
  | cons value later ih => exact (scanned_some rfl).trans (congrArg _ ih)

theorem gives_map {p : Producer ω ν α} {f : α → Noted ω β} {values : List α}
    (gives : Gives M p.step p.state values) :
    Gives M (p.map f).step (p.map f).state (values.map fun value => (f value).value) := by
  rw [← scanned_map]
  exact gives_scanFilter gives

theorem given_map {p : Producer ω ν α} {f : α → Noted ω β} {n : Nat} {s : p.State} :
    given M (p.map f).step n (s, ()) = (given M p.step n s).map fun value => (f value).value := by
  refine given_scanFilter.trans ?_
  rw [Listing.through, scanned_map]
  rfl

def outputs (step : τ → α → τ × β) : τ → List α → List β
  | _, [] => []
  | carried, value :: later =>
    let (carried', output) := step carried value
    output :: outputs step carried' later

theorem scanned_outputs {step : τ → α → Noted ω (τ × β)} (values : List α) :
    scanned (fun carried value => do
        let (next, output) ← step carried value
        pure (next, some output)) carried values =
      outputs (fun carried value => (step carried value).value) carried values := by
  induction values generalizing carried with
  | nil => rfl
  | cons value values ih => exact congrArg _ ih

theorem outputs_map {step : τ → α → τ × β} {place : β → γ} (values : List α) :
    outputs (fun carried value => ((step carried value).1, place (step carried value).2)) carried
      values = (outputs step carried values).map place := by
  induction values generalizing carried with
  | nil => rfl
  | cons value values ih => exact congrArg _ ih

theorem outputs_more (step : τ → α → τ × β) (carried : τ) (values later : List α) :
    outputs step carried values <+: outputs step carried (values ++ later) := by
  induction values generalizing carried with
  | nil => exact List.nil_prefix
  | cons value values ih => exact List.cons_prefix_cons.mpr ⟨rfl, ih _⟩

theorem scanned_filter {keep : α → Noted ω Bool} (values : List α) :
    scanned (fun (_ : Unit) value => do
        let kept ← keep value
        pure ((), if kept then some value else none)) () values =
      values.filter fun value => (keep value).value := by
  induction values with
  | nil => rfl
  | cons value values ih =>
    rw [List.filter_cons, ← ih]
    cases kept : (keep value).value with
    | true => exact scanned_some (by rw [Noted.value_bind, kept]; rfl)
    | false => exact scanned_none (by rw [Noted.value_bind, kept]; rfl)

def keepUnequal (equal : α → α → Noted ω Bool) (kept : Option α) (value : α) :
    Noted ω (Option α × Option α) :=
  match kept with
  | none => pure (some value, some value)
  | some last => do
    if ← equal last value then pure (some last, none) else pure (some value, some value)

theorem scanned_dedup {equal : α → α → Noted ω Bool} (values : List α) :
    scanned (keepUnequal equal) none values =
      values.destutter fun last value => (equal last value).value = false := by
  have behind (last : α) (values : List α) :
      last :: scanned (keepUnequal equal) (some last) values =
        values.destutter' (fun last value => (equal last value).value = false) last := by
    induction values generalizing last with
    | nil => rfl
    | cons value values ih =>
      rw [List.destutter'_cons]
      cases same : (equal last value).value with
      | true =>
        have step : (keepUnequal equal (some last) value).value = (some last, none) := by
          simp [keepUnequal, same]
        rw [scanned_none step, ih, if_neg (by simp)]
      | false =>
        have step : (keepUnequal equal (some last) value).value = (some value, some value) := by
          simp [keepUnequal, same]
        rw [scanned_some step, ih, if_pos rfl]
  cases values with
  | nil => rfl
  | cons value values => exact (scanned_some rfl).trans (behind value values)

theorem scanned_entries {pair : Nat → α → β} (values : List α) :
    (scanned (fun index value => (pure (index + 1, some (index, value)) :
        Noted ω (Nat × Option (Nat × α)))) 0 values).map (fun (index, value) => pair index value) =
      values.mapIdx pair := by
  suffices ∀ first, (scanned (fun index value => (pure (index + 1, some (index, value)) :
      Noted ω (Nat × Option (Nat × α)))) first values).map (fun (index, value) => pair index value) =
        values.mapIdx fun index value => pair (index + first) value from this 0
  intro first
  induction values generalizing first with
  | nil => rfl
  | cons value values ih =>
    rw [scanned_some rfl, List.map_cons, ih, List.mapIdx_cons, Nat.zero_add]
    simp only [Nat.add_assoc, Nat.add_comm 1]

theorem tail_scanl_cons (f : τ → α → τ) (start : τ) (value : α) (values : List α) :
    ((value :: values).scanl f start).tail =
      f start value :: (values.scanl f (f start value)).tail := by
  cases values <;> simp

theorem scanned_inclusive {next : τ → α → Noted ω τ} {output : τ → β} (values : List α) :
    scanned (fun s value => do
        let s' ← next s value
        pure (s', some (output s'))) carried values =
      ((values.scanl (fun s value => (next s value).value) carried).tail).map output := by
  induction values generalizing carried with
  | nil => rfl
  | cons value values ih =>
    rw [tail_scanl_cons, List.map_cons, ← ih]
    exact scanned_some rfl

theorem scanned_exclusive {next : τ → α → Noted ω τ} {output : τ → β} (values : List α) :
    scanned (fun s value => do
        let s' ← next s value
        pure (s', some (output s))) carried values =
      ((values.scanl (fun s value => (next s value).value) carried).dropLast).map output := by
  induction values generalizing carried with
  | nil => rfl
  | cons value values ih =>
    rw [List.scanl_cons, List.dropLast_cons_of_ne_nil (by cases values <;> simp), List.map_cons,
      ← ih]
    exact scanned_some rfl

end Scanned

end DemandLex.Producer
