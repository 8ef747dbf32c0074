import DemandLex.Proofs.Program.Finite
import DemandLex.Proofs.Program.Twin
import Mathlib.Tactic.TFAE

/-! Programs over lazy sequences answer what programs over lists answer, whatever has been forced and
whatever is shared. -/

namespace DemandLex.Program

open Filter

variable {ω ν : Type}

def Step.loops : Step ω ν → Bool
  | .make _ _ | .ask _ => true
  | _ => false

section Act
variable {t : Twin ω ν} {store : Store ω ν} {M : Meaning ν} {step : Step ω ν}

namespace Twin

/-- What a step has come to, the step over lists comes to at all large depths. -/
inductive Came (t : Twin ω ν) (store : Store ω ν) (M : Meaning ν) (step : Step ω ν) :
    Except Failure (Answer ν × Shelf ω ν × Store ω ν) → Prop
  | endless : Came t store M step (.error .endless)
  | failed (failure : Failure)
      (same : ∀ depth, (t.lists depth).act depth step = .error failure) :
      Came t store M step (.error failure)
  | went (answer : Answer ν) (t' : Twin ω ν) (store' : Store ω ν) (M' : Meaning ν)
      (leaves : store.Leaves M store' M') (fits : t'.Fits store' M')
      (same : ∀ᶠ depth in atTop, (t.lists depth).act depth step = .ok (answer, t'.lists depth)) :
      Came t store M step (.ok (answer, t'.shelf, store'))

/-- What a step over lists comes to, the step comes to if it may go on for long enough. -/
inductive Comes (t : Twin ω ν) (store : Store ω ν) (M : Meaning ν) (step : Step ω ν)
    (depth : Nat) : Except Failure (Answer ν × ListShelf ω ν) → Prop
  | endless : Comes t store M step depth (.error .endless)
  | failed (failure : Failure)
      (same : ∀ rounds, t.shelf.act rounds step store = .error failure) :
      Comes t store M step depth (.error failure)
  | went (answer : Answer ν) (t' : Twin ω ν) (store' : Store ω ν) (M' : Meaning ν)
      (leaves : store.Leaves M store' M') (fits : t'.Fits store' M')
      (same : ∀ᶠ rounds in atTop,
        t.shelf.act rounds step store = .ok (answer, t'.shelf, store')) :
      Comes t store M step depth (.ok (answer, t'.lists depth))

/-- A step that comes back at once does the same on both sides. -/
theorem act_at_once (ready : store.Ready M) (fits : t.Fits store M) (once : step.loops = false) :
    (∃ failure, (∀ rounds, t.shelf.act rounds step store = .error failure) ∧
      ∀ depth, (t.lists depth).act depth step = .error failure) ∨
    ∃ answer t' store', store.Leaves M store' M ∧ Twin.Fits t' store' M ∧
      (∀ rounds, t.shelf.act rounds step store = .ok (answer, t'.shelf, store')) ∧
      ∀ depth, (t.lists depth).act depth step = .ok (answer, t'.lists depth) := by
  cases step with
  | make | ask => cases once
  | makeMachine name how =>
    have same (depth : Nat) : (⟨[], (t.lists depth).machines⟩ : Shelf ω ν).makeMachine how =
        t.shelf.makeMachine how := by cases how <;> rfl
    cases made : t.shelf.makeMachine how with
    | error failure =>
      refine Or.inl ⟨failure, fun rounds => ?_, fun depth => ?_⟩
      · simp only [Shelf.act, made]
      · simp only [ListShelf.act, same, made]
    | ok made' =>
      have leaves := Lazy.leaves_log made'.notes ready
      refine Or.inr ⟨.stored, { t with machines := t.machines.insert name made'.value },
        store.log made'.notes, leaves, fits.later ready leaves, fun rounds => ?_, fun depth => ?_⟩
      · simp only [Shelf.act, made]
        rfl
      · simp only [ListShelf.act, same, made]
        rfl
  | machineValue machine =>
    cases found : t.machines.lookup machine with
    | none =>
      refine Or.inl ⟨.unknownName machine, fun rounds => ?_, fun depth => ?_⟩
      · simp only [Shelf.act, Names.find, shelf, found]
      · simp only [ListShelf.act, Names.find, lists, found]
    | some m =>
      refine Or.inr ⟨.value m.value, t, store, .refl ready, fits, fun rounds => ?_, fun depth => ?_⟩
      · simp only [Shelf.act, Names.find, shelf, found]
      · simp only [ListShelf.act, Names.find, lists, found]
  | drop name =>
    refine Or.inr ⟨.yes (t.pairs.contains name), { t with pairs := t.pairs.erase name }, store,
      .refl ready, fits.erase, fun rounds => ?_, fun depth => ?_⟩
    · simp only [Shelf.act, shelf, Names.contains_mapThings, Names.erase_mapThings]
    · simp only [ListShelf.act, lists, Names.contains_mapThings, Names.erase_mapThings]

theorem eventually_of_settles {α : Type 1} {x : Nat → Option α} {result : α}
    (settles : Store.Settles x result) : ∀ᶠ rounds in atTop, x rounds = some result := by
  obtain ⟨enough, settles⟩ := settles
  filter_upwards [eventually_ge_atTop enough] with rounds later
  exact settles rounds later

theorem came_act (rounds : Nat) (ready : store.Ready M) (fits : t.Fits store M)
    (plain : step.compares = false) : t.Came store M step (t.shelf.act rounds step store) := by
  cases once : step.loops with
  | false =>
    rcases act_at_once ready fits once with
      ⟨failure, fails, fails'⟩ | ⟨answer, t', store', leaves, fits', went, went'⟩
    · rw [fails]
      exact .failed failure fails'
    · rw [went]
      exact .went answer t' store' M leaves fits' (.of_forall went')
  | true =>
    cases step with
    | makeMachine | machineValue | drop => cases once
    | make name how =>
      rcases alike_make how ready fits with ⟨failure, fails, fails'⟩ | ⟨x, c, made, made', makes⟩
      · rw [Shelf.act, fails]
        exact .failed failure fun depth => by simp only [ListShelf.act, fails']
      · cases came : x rounds store with
        | none =>
          simp only [Shelf.act, made, force, came]
          exact .endless
        | some found =>
          obtain ⟨s, store'⟩ := found
          obtain ⟨M', leaves, has, denotes⟩ := makes.came rounds s store' came
          simp only [Shelf.act, made, force, came]
          refine .went .stored { t with pairs := t.pairs.insert name (s, c) } store' M' leaves
            ((fits.later ready leaves).insert ⟨has, denotes⟩) ?_
          -- a sequence has been made, so it is known from some depth on what it begins with
          filter_upwards [denotes.headed (n := 1) Meaning.isHeaded_shown] with depth headed
          simp only [ListShelf.act, made', headed, if_true]
          rfl
    | ask query =>
      rcases alike_ask query ready fits plain with
        ⟨failure, fails, fails'⟩ | ⟨x, known, asked, asked', replies⟩
      · rw [Shelf.act, fails]
        exact .failed failure fun depth => by simp only [ListShelf.act, fails']
      · cases came : x rounds store with
        | none =>
          simp only [Shelf.act, asked, force, came]
          exact .endless
        | some found =>
          obtain ⟨answer, store'⟩ := found
          obtain ⟨⟨M', leaves⟩, replied⟩ := replies.came rounds answer store' came
          simp only [Shelf.act, asked, force, came]
          refine .went answer t store' M' leaves (fits.later ready leaves) ?_
          -- an answer that has come is known from some depth on
          filter_upwards [replied] with depth known
          simp only [ListShelf.act, asked', known]

theorem comes_act (depth : Nat) (ready : store.Ready M) (fits : t.Fits store M)
    (plain : step.compares = false) :
    t.Comes store M step depth ((t.lists depth).act depth step) := by
  cases once : step.loops with
  | false =>
    rcases act_at_once ready fits once with
      ⟨failure, fails, fails'⟩ | ⟨answer, t', store', leaves, fits', went, went'⟩
    · rw [fails']
      exact .failed failure fails
    · rw [went']
      exact .went answer t' store' M leaves fits' (.of_forall went)
  | true =>
    cases step with
    | makeMachine | machineValue | drop => cases once
    | make name how =>
      rcases alike_make how ready fits with ⟨failure, fails, fails'⟩ | ⟨x, c, made, made', makes⟩
      · simp only [ListShelf.act, fails']
        exact .failed failure fun rounds => by simp only [Shelf.act, fails]
      · simp only [ListShelf.act, made']
        cases headed : (c depth).isHeaded with
        | false => exact .endless
        | true =>
          -- what is known at this depth makes the computation come back with all but finitely many rounds
          obtain ⟨⟨s, store'⟩, settles⟩ := makes.comes depth headed
          have came := eventually_of_settles settles
          obtain ⟨rounds, first⟩ := came.exists
          obtain ⟨M', leaves, has, denotes⟩ := makes.came rounds s store' first
          refine .went .stored { t with pairs := t.pairs.insert name (s, c) } store' M' leaves
            ((fits.later ready leaves).insert ⟨has, denotes⟩) ?_
          filter_upwards [came] with rounds came
          simp only [Shelf.act, made, force, came]
          rfl
    | ask query =>
      rcases alike_ask query ready fits plain with
        ⟨failure, fails, fails'⟩ | ⟨x, known, asked, asked', replies⟩
      · simp only [ListShelf.act, fails']
        exact .failed failure fun rounds => by simp only [Shelf.act, fails]
      · simp only [ListShelf.act, asked']
        cases answered : known depth with
        | none => exact .endless
        | some answer =>
          obtain ⟨store', settles⟩ := replies.comes depth answer answered
          have came := eventually_of_settles settles
          obtain ⟨rounds, first⟩ := came.exists
          obtain ⟨⟨M', leaves⟩, -⟩ := replies.came rounds answer store' first
          refine .went answer t store' M' leaves (fits.later ready leaves) ?_
          filter_upwards [came] with rounds came
          simp only [Shelf.act, asked, force, came]

end Twin

end Act

section Run

def answers {α : Type} (entries : Except Failure (List (Entry ω α))) : Except Failure (List α) :=
  entries.map fun entries => entries.map Entry.answer

theorem answers_runSteps_cons {ε : Type 1} {σ : Type 1} {α : Type}
    {act : σ → ε → Store ω ν → Except Failure (α × ε × Store ω ν)} {environment : ε}
    {store : Store ω ν} {step : σ} {later : List σ} :
    answers (runSteps act environment store (step :: later)) =
      match act step environment store with
      | .error failure => .error failure
      | .ok (answer, environment, store) =>
        (answers (runSteps act environment store later)).map (answer :: ·) := by
  rw [runSteps]
  cases act step environment store with
  | error failure => rfl
  | ok result =>
    obtain ⟨answer, environment, store⟩ := result
    dsimp only
    cases runSteps act environment store later <;> rfl

theorem map_eq_ok {α β : Type} {f : α → β} {x : Except Failure α} {b : β} (ok : x.map f = .ok b) :
    ∃ a, x = .ok a ∧ b = f a := by
  cases x with
  | error failure => cases ok
  | ok a =>
    cases ok
    exact ⟨a, rfl, rfl⟩

theorem map_ne_endless {α β : Type} {f : α → β} {x : Except Failure α}
    (ended : x.map f ≠ .error .endless) : x ≠ .error .endless := by
  rintro rfl
  exact ended rfl

namespace Twin
variable {t : Twin ω ν} {store : Store ω ν} {M : Meaning ν} {steps : List (Step ω ν)}
  {r : Except Failure (List (Answer ν))}

/-- What a run has come to, the run over lists comes to at all large depths. -/
theorem run_came {rounds : Nat} (ready : store.Ready M) (fits : t.Fits store M)
    (plain : ∀ step ∈ steps, step.compares = false) (ended : r ≠ .error .endless)
    (came : answers (runSteps (Shelf.act rounds) t.shelf store steps) = r) :
    ∀ᶠ depth in atTop, (t.lists depth).run depth steps = r := by
  induction steps generalizing t store M r with
  | nil => exact .of_forall fun _ => came
  | cons step later ih =>
    have acted := came_act rounds ready fits (plain step List.mem_cons_self)
    rw [answers_runSteps_cons] at came
    generalize t.shelf.act rounds step store = result at acted came
    cases acted with
    | endless => exact absurd came.symm ended
    | failed failure same =>
      subst came
      exact .of_forall fun depth => by rw [ListShelf.run, same]
    | went answer t' store' M' leaves fits' same =>
      subst came
      have behind := ih leaves.ready fits' (fun step inside => plain step (List.mem_cons_of_mem _ inside))
        (map_ne_endless ended) rfl
      filter_upwards [same, behind] with depth acted ran
      rw [ListShelf.run, acted]
      exact congrArg (Except.map (answer :: ·)) ran

/-- What a run over lists comes to, the run comes to if it may go on for long enough. -/
theorem run_comes {depth : Nat} (ready : store.Ready M) (fits : t.Fits store M)
    (plain : ∀ step ∈ steps, step.compares = false) (ended : r ≠ .error .endless)
    (came : (t.lists depth).run depth steps = r) :
    ∀ᶠ rounds in atTop, answers (runSteps (Shelf.act rounds) t.shelf store steps) = r := by
  induction steps generalizing t store M r with
  | nil => exact .of_forall fun _ => came
  | cons step later ih =>
    have acted := comes_act depth ready fits (plain step List.mem_cons_self)
    rw [ListShelf.run] at came
    generalize (t.lists depth).act depth step = result at acted came
    cases acted with
    | endless => exact absurd came.symm ended
    | failed failure same =>
      subst came
      exact .of_forall fun rounds => by rw [answers_runSteps_cons, same]
    | went answer t' store' M' leaves fits' same =>
      subst came
      have behind := ih leaves.ready fits' (fun step inside => plain step (List.mem_cons_of_mem _ inside))
        (map_ne_endless ended) rfl
      filter_upwards [same, behind] with rounds acted ran
      rw [answers_runSteps_cons, acted]
      exact congrArg (Except.map (answer :: ·)) ran

end Twin

theorem ListShelf.run_leave_out {depth : Nat} {shelf : ListShelf ω ν}
    {before after : List (Step ω ν)} {query : Query ω ν} {replies : List (Answer ν)}
    (ran : shelf.run depth (before ++ .ask query :: after) = .ok replies) :
    shelf.run depth (before ++ after) = .ok (replies.eraseIdx before.length) := by
  induction before generalizing shelf replies with
  | nil =>
    rw [List.nil_append, ListShelf.run] at ran
    cases asked : shelf.ask query with
    | error failure =>
      simp only [act, asked] at ran
      cases ran
    | ok reply =>
      cases reply with
      | none =>
        simp only [act, asked] at ran
        cases ran
      | some answer =>
        simp only [act, asked] at ran
        obtain ⟨later, rest, rfl⟩ := map_eq_ok ran
        exact rest
  | cons step before ih =>
    rw [List.cons_append, ListShelf.run] at ran ⊢
    cases acted : shelf.act depth step with
    | error failure =>
      rw [acted] at ran
      cases ran
    | ok result =>
      obtain ⟨answer, shelf'⟩ := result
      rw [acted] at ran
      obtain ⟨later, rest, rfl⟩ := map_eq_ok ran
      exact congrArg (Except.map (answer :: ·)) (ih rest)

end Run

section Refinement
variable {steps : List (Step ω ν)} {r : Except Failure (List (Answer ν))}

theorem eventually_runOnLists {rounds : Nat} (plain : ∀ step ∈ steps, step.compares = false)
    (ended : r ≠ .error .endless) (came : answers (run rounds steps) = r) :
    ∀ᶠ depth in atTop, runOnLists depth steps = r :=
  Twin.run_came (t := ⟨[], []⟩) Store.ready_empty Twin.fits_empty plain ended came

theorem eventually_run {depth : Nat} (plain : ∀ step ∈ steps, step.compares = false)
    (ended : r ≠ .error .endless) (came : runOnLists depth steps = r) :
    ∀ᶠ rounds in atTop, answers (run rounds steps) = r :=
  Twin.run_comes (t := ⟨[], []⟩) Store.ready_empty Twin.fits_empty plain ended came

/-- What a program answers, whatever was forced and is shared, is what it answers over lists: no run
answers otherwise, each that may go on for long enough answers as soon as enough of the lists is known, and
this comes to pass if the lists end. So no question changes what the others are answered. -/
theorem run_refines_lists (plain : ∀ step ∈ steps, step.compares = false) :
    (∀ r : Except Failure (List (Answer ν)), r ≠ .error .endless → List.TFAE [
      ∃ rounds, answers (run rounds steps) = r,
      ∀ᶠ rounds in atTop, answers (run rounds steps) = r,
      ∃ depth, runOnLists depth steps = r,
      ∀ᶠ depth in atTop, runOnLists depth steps = r]) ∧
    ((∀ step ∈ steps, step.Ends) →
      ∃ r : Except Failure (List (Answer ν)), r ≠ .error .endless ∧
        ∀ᶠ rounds in atTop, answers (run rounds steps) = r) ∧
    ∀ before query after replies, steps = before ++ .ask query :: after →
      (∃ rounds, answers (run rounds steps) = .ok replies) →
        ∀ᶠ rounds in atTop,
          answers (run rounds (before ++ after)) = .ok (replies.eraseIdx before.length) := by
  refine ⟨fun r ended => ?_, fun ends => ?_, ?_⟩
  · tfae_have 1 → 4
    | ⟨rounds, came⟩ => eventually_runOnLists plain ended came
    tfae_have 4 → 3 := fun eventually => eventually.exists
    tfae_have 3 → 2
    | ⟨depth, came⟩ => eventually_run plain ended came
    tfae_have 2 → 1 := fun eventually => eventually.exists
    tfae_finish
  · have whole : (⟨[], []⟩ : ListShelf ω ν).Whole := fun _ _ there => by cases there
    rcases ListShelf.ended_run whole ends plain with ⟨name, fails⟩ | ⟨answers, -, ran⟩
    · obtain ⟨depth, came⟩ := fails.exists
      exact ⟨.error (.unknownName name), by rintro ⟨⟩, eventually_run plain (by rintro ⟨⟩) came⟩
    · obtain ⟨depth, came⟩ := ran.exists
      exact ⟨.ok answers, by rintro ⟨⟩, eventually_run plain (by rintro ⟨⟩) came⟩
  · rintro before query after replies rfl ⟨rounds, came⟩
    obtain ⟨depth, ran⟩ := (eventually_runOnLists plain (by rintro ⟨⟩) came).exists
    refine eventually_run ?_ (by rintro ⟨⟩) (ListShelf.run_leave_out ran)
    intro step inside
    apply plain
    simp only [List.mem_append, List.mem_cons] at inside ⊢
    exact inside.imp_right Or.inr

/-- The numbers, the even ones of them behind two others, and three of these, asked for between the
forcing of two copies. -/
def evenNumbers : List (Step Unit Nat) := [
  .make "numbers" (.unfold 0 fun n => pure (some (n, n + 1))),
  .make "copy" (.copy "numbers"),
  .make "even" (.derive "numbers" (.filter fun n => pure (n % 2 == 0))),
  .make "two" (.items [7, 7]),
  .make "both" (.appendWith "two" "even" []),
  .make "later" (.rest "copy"),
  .ask (.iterTake "later" 2),
  .make "three" (.derive "both" (.take 4)),
  .ask (.list "three"),
  .ask (.first "numbers")]

theorem evenNumbers_refines_lists :
    (∀ step ∈ evenNumbers, step.compares = false) ∧
    ∀ᶠ rounds in atTop, answers (run rounds evenNumbers) = .ok [.stored, .stored, .stored, .stored,
      .stored, .stored, .items [1, 2], .stored, .items [7, 7, 0, 2], .front (some 0)] := by
  have plain : ∀ step ∈ evenNumbers, step.compares = false := by simp [evenNumbers, Step.compares]
  refine ⟨plain, ?_⟩
  have known : runOnLists 5 evenNumbers = .ok [.stored, .stored, .stored, .stored,
      .stored, .stored, .items [1, 2], .stored, .items [7, 7, 0, 2], .front (some 0)] := by rfl
  have ended : runOnLists 5 evenNumbers ≠ .error .endless := by
    rw [known]
    rintro ⟨⟩
  have reached : ∃ depth, runOnLists depth evenNumbers = runOnLists 5 evenNumbers := ⟨5, rfl⟩
  rw [← known]
  exact (((run_refines_lists plain).1 _ ended).out 2 1).mp reached

end Refinement

end DemandLex.Program
