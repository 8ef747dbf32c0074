import DemandLex.Proofs.Program.Works

/-! What the steps of a program leave: a shelf, a store, and the notes of the steps in the store. What
each silent step keeps a silent program keeps. -/

namespace DemandLex.Program

open Filter

variable {ω ν : Type} {mine : ω → Bool} {loud : String → Prop}

def Shelf.leave (rounds : Nat) : Shelf ω ν → Store ω ν → List (Step ω ν) →
    Except Failure (Shelf ω ν × Store ω ν)
  | shelf, store, [] => .ok (shelf, store)
  | shelf, store, step :: later =>
    match shelf.act rounds step store with
    | .error failure => .error failure
    | .ok (_, shelf, store) => shelf.leave rounds store later

/-- The lists that the steps of a program leave. Questions are left out: they change no list. -/
def ListShelf.leave (depth : Nat) : ListShelf ω ν → List (Step ω ν) → Except Failure (ListShelf ω ν)
  | shelf, [] => .ok shelf
  | shelf, .ask _ :: later => shelf.leave depth later
  | shelf, step :: later =>
    match shelf.act depth step with
    | .error failure => .error failure
    | .ok (_, shelf) => shelf.leave depth later

section Steps
variable {rounds : Nat} {shelf shelf' : Shelf ω ν} {store store' : Store ω ν} {step : Step ω ν}
  {steps later : List (Step ω ν)}

theorem leave_cons (left : shelf.leave rounds store (step :: later) = .ok (shelf', store')) :
    ∃ answer shelf₁ store₁, shelf.act rounds step store = .ok (answer, shelf₁, store₁) ∧
      shelf₁.leave rounds store₁ later = .ok (shelf', store') := by
  rw [Shelf.leave] at left
  split at left
  · cases left
  · next answer shelf₁ store₁ acted => exact ⟨answer, shelf₁, store₁, acted, left⟩

theorem leave_append (left : shelf.leave rounds store (steps ++ later) = .ok (shelf', store')) :
    ∃ shelf₁ store₁, shelf.leave rounds store steps = .ok (shelf₁, store₁) ∧
      shelf₁.leave rounds store₁ later = .ok (shelf', store') := by
  induction steps generalizing shelf store with
  | nil => exact ⟨shelf, store, rfl, left⟩
  | cons step steps ih =>
    obtain ⟨answer, shelf₁, store₁, acted, left⟩ := leave_cons left
    obtain ⟨shelf₂, store₂, first, second⟩ := ih left
    exact ⟨shelf₂, store₂, by rw [Shelf.leave, acted]; exact first, second⟩

end Steps

namespace Twin

variable {t : Twin ω ν} {M : Meaning ν} {rounds : Nat} {shelf' : Shelf ω ν}
  {store store' : Store ω ν}

/-- What a step leaves the step over lists leaves at all large depths, comparisons included. -/
theorem leaves_act {step : Step ω ν} {answer : Answer ν} (ready : store.Ready M)
    (fits : t.Fits store M) (acted : t.shelf.act rounds step store = .ok (answer, shelf', store')) :
    ∃ t' M', shelf' = Twin.shelf t' ∧ store.Leaves M store' M' ∧ Twin.Fits t' store' M' ∧
      ∀ᶠ depth in atTop, ∀ later,
        (t.lists depth).leave depth (step :: later) = (t'.lists depth).leave depth later := by
  have made (plain : step.compares = false) (told : ∀ query, step ≠ .ask query) :
      ∃ t' M', shelf' = Twin.shelf t' ∧ store.Leaves M store' M' ∧ Twin.Fits t' store' M' ∧
        ∀ᶠ depth in atTop, ∀ later,
          (t.lists depth).leave depth (step :: later) = (t'.lists depth).leave depth later := by
    have came := came_act rounds ready fits plain
    rw [acted] at came
    cases came with
    | went answer t' store' M' leaves fits' same =>
      refine ⟨t', M', rfl, leaves, fits', same.mono fun depth acted later => ?_⟩
      cases step with
      | ask query => exact absurd rfl (told query)
      | make | makeMachine | machineValue | drop => rw [ListShelf.leave, acted]; simp
  cases step with
  | ask query =>
    obtain ⟨x, asked, came, rfl⟩ := act_ask acted
    obtain ⟨M', develops, -⟩ := works_ask ready fits muted_never (Step.silent_never (.ask query))
      asked rounds answer store' came
    have leaves := develops.leaves ready
    exact ⟨t, M', rfl, leaves, fits.later ready leaves, .of_forall fun depth later => rfl⟩
  | make | makeMachine | machineValue | drop => exact made rfl (by rintro query ⟨⟩)

theorem leave_keeps {steps : List (Step ω ν)} {K : Meaning ν} {bound : Nat} {I : Store ω ν → Prop}
    (keeps : ∀ store M store' N, store.Ready M → K.Agree M bound → I store →
      store.Develops mine M store' N → I store')
    (ready : store.Ready M) (fits : t.Fits store M) (muted : Muted mine loud t.machines)
    (silent : ∀ step ∈ steps, step.Silent mine loud) (agree : K.Agree M bound)
    (inside : bound ≤ store.spines.size) (holds : I store)
    (left : t.shelf.leave rounds store steps = .ok (shelf', store')) :
    ∃ t' M', shelf' = Twin.shelf t' ∧ store.Leaves M store' M' ∧ Twin.Fits t' store' M' ∧
      Muted mine loud t'.machines ∧ I store' ∧
      ∀ᶠ depth in atTop, (t.lists depth).leave depth steps = .ok (t'.lists depth) := by
  induction steps generalizing t store M with
  | nil =>
    cases left
    exact ⟨t, M, rfl, .refl ready, fits, muted, holds, .of_forall fun _ => rfl⟩
  | cons step later ih =>
    obtain ⟨answer, shelf₁, store₁, acted, left⟩ := leave_cons left
    have quiet := silent step List.mem_cons_self
    obtain ⟨N, develops⟩ := develops_act ready fits muted quiet acted
    have holds₁ := keeps store M store₁ N ready agree holds develops
    have muted₁ := muted_act muted quiet acted
    obtain ⟨t₁, M₁, rfl, leaves, fits₁, same⟩ := leaves_act ready fits acted
    obtain ⟨t', M', rfl, leaves', fits', muted', holds', behind⟩ := ih leaves.ready fits₁ muted₁
      (fun step inside => silent step (List.mem_cons_of_mem _ inside))
      (agree.trans (leaves.agree.weaken inside) le_rfl) (inside.trans leaves.spines) holds₁ left
    refine ⟨t', M', rfl, leaves.trans leaves', fits', muted', holds', ?_⟩
    filter_upwards [same, behind] with depth same behind
    rw [same, behind]

end Twin

section Notes

theorem toList_extract_of_prefix {α : Type} {before after : Array α}
    (le : before.toList <+: after.toList) :
    before.toList ++ (after.extract before.size after.size).toList = after.toList := by
  obtain ⟨later, same⟩ := le
  have size : after.size = before.size + later.length := by
    rw [← Array.length_toList, ← same]
    simp
  rw [Array.toList_extract, ← same, size]
  simp

theorem leave_of_runSteps {t : Twin ω ν} {M : Meaning ν} {rounds : Nat} {store : Store ω ν}
    {steps : List (Step ω ν)} {entries : List (Entry ω (Answer ν))} (ready : store.Ready M)
    (fits : t.Fits store M)
    (ran : runSteps (Shelf.act rounds) t.shelf store steps = .ok entries) :
    ∃ shelf' store', t.shelf.leave rounds store steps = .ok (shelf', store') ∧
      store'.notes.toList = store.notes.toList ++ entries.flatMap Entry.notes := by
  induction steps generalizing t store M entries with
  | nil =>
    cases ran
    exact ⟨t.shelf, store, rfl, by simp⟩
  | cons step later ih =>
    rw [runSteps] at ran
    split at ran
    · cases ran
    · next answer shelf₁ store₁ acted =>
      split at ran
      · cases ran
      · next entries' ran' =>
        cases ran
        obtain ⟨N, develops⟩ := develops_act ready fits muted_never step.silent_never acted
        obtain ⟨t₁, M₁, rfl, leaves, fits₁, -⟩ := Twin.leaves_act ready fits acted
        obtain ⟨shelf', store', left, notes⟩ := ih leaves.ready fits₁ ran'
        refine ⟨shelf', store', by rw [Shelf.leave, acted]; exact left, ?_⟩
        rw [notes, List.flatMap_cons, ← List.append_assoc,
          toList_extract_of_prefix develops.adds.notes]

end Notes

end DemandLex.Program
