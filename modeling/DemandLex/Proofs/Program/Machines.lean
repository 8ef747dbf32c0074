import DemandLex.Proofs.Program.CallByNeed

/-! Machines that drive scans and folds. Each of these shows a part of one trace, which is all that a
machine shows on the elements; and a machine that is stepped, or drives whatever else, goes on to have
that trace. -/

namespace DemandLex

namespace Machine

variable {ω ι o : Type}

def trace (m : Machine ω ι o) : List ι → List o
  | [] => [m.value]
  | input :: later => m.value :: (m.step input).value.trace later

section Trace
variable {m : Machine ω ι o} {inputs : List ι}

theorem trace_eq_scanl (m : Machine ω ι o) (inputs : List ι) :
    m.trace inputs =
      (inputs.scanl (fun s input => (m.next s input).value) m.state).map m.output := by
  induction inputs generalizing m with
  | nil => rfl
  | cons input later ih =>
    rw [trace, ih, List.scanl_cons, List.map_cons]
    rfl

theorem length_trace : (m.trace inputs).length = inputs.length + 1 := by
  rw [trace_eq_scanl, List.length_map, List.length_scanl]

theorem trace_eq_cons : m.trace inputs = m.value :: (m.trace inputs).tail := by
  cases inputs <;> rfl

theorem trace_eq_concat : m.trace inputs = (m.trace inputs).dropLast ++
    [m.output (inputs.foldl (fun s input => (m.next s input).value) m.state)] := by
  induction inputs generalizing m with
  | nil => rfl
  | cons input later ih =>
    rw [trace, trace_eq_cons, List.dropLast_cons_cons, ← trace_eq_cons, List.cons_append]
    exact congrArg _ ih

end Trace

end Machine

namespace Sequence

variable {ω ν α : Type} {M : Meaning ν} {store : Store ω ν} {s : Sequence ν} {values : List ν}

section Scans

variable (m : Machine ω ν ν) (ready : store.Ready M) (lists : s.Lists values store M)
include ready lists

theorem returns_exclusiveScan :
    ((Producer.ofSequence s).exclusiveScan m).share.Returns store M fun t store' M' =>
      t.Lists (m.trace values).dropLast store' M' := by
  rw [Machine.trace_eq_scanl, ← List.map_dropLast, ← Producer.scanned_exclusive]
  exact returns_scanFilter ready lists

theorem returns_inclusiveScan :
    ((Producer.ofSequence s).inclusiveScan m).share.Returns store M fun t store' M' =>
      t.Lists (m.trace values).tail store' M' := by
  rw [Machine.trace_eq_scanl, ← List.map_tail, ← Producer.scanned_inclusive]
  exact returns_scanFilter ready lists

theorem returns_exclusiveFold :
    (s.exclusiveFold m).Returns store M fun result _ _ =>
      result = m.output (values.foldl (fun s value => (m.next s value).value) m.state) := by
  apply (returns_foldM ready lists).bind
  rintro last store' M' leaves rfl
  exact Lazy.returns_pure leaves.ready rfl

end Scans

end Sequence

namespace Program

variable {ω ν : Type} {rounds : Nat} {shelf shelf' : Shelf ω ν} {store store' : Store ω ν}
  {M : Meaning ν} {source machine : String} {s : Sequence ν} {m : Machine ω ν ν} {values : List ν}

section Kept

def Step.Spares (source machine : String) : Step ω ν → Prop
  | .make name _ => name ≠ source
  | .makeMachine name _ => name ≠ machine
  | .drop name => name ≠ source
  | _ => True

theorem lookup_act {step : Step ω ν} {answer : Answer ν} (spares : step.Spares source machine)
    (acted : shelf.act rounds step store = .ok (answer, shelf', store')) :
    shelf'.sequences.lookup source = shelf.sequences.lookup source ∧
      shelf'.machines.lookup machine = shelf.machines.lookup machine := by
  cases step with
  | make name how =>
    obtain ⟨x, s, -, -, rfl⟩ := act_make acted
    exact ⟨Names.lookup_insert.trans (if_neg (Ne.symm spares)), rfl⟩
  | makeMachine name how =>
    obtain ⟨made, -, -, rfl⟩ := act_makeMachine acted
    exact ⟨rfl, Names.lookup_insert.trans (if_neg (Ne.symm spares))⟩
  | ask query =>
    obtain ⟨x, -, -, rfl⟩ := act_ask acted
    exact ⟨rfl, rfl⟩
  | machineValue name =>
    obtain ⟨m, -, same⟩ := Names.find_eq_ok.mp acted
    cases same
    exact ⟨rfl, rfl⟩
  | drop name =>
    cases acted
    exact ⟨Names.lookup_erase (Ne.symm spares), rfl⟩

theorem lookup_leave {steps : List (Step ω ν)}
    (spares : ∀ step ∈ steps, step.Spares source machine)
    (left : shelf.leave rounds store steps = .ok (shelf', store')) :
    shelf'.sequences.lookup source = shelf.sequences.lookup source ∧
      shelf'.machines.lookup machine = shelf.machines.lookup machine := by
  induction steps generalizing shelf store with
  | nil =>
    cases left
    exact ⟨rfl, rfl⟩
  | cons step later ih =>
    obtain ⟨answer, shelf₁, store₁, acted, left⟩ := leave_cons left
    obtain ⟨sequences, machines⟩ := lookup_act (spares step List.mem_cons_self) acted
    obtain ⟨sequences', machines'⟩ :=
      ih (fun step inside => spares step (List.mem_cons_of_mem _ inside)) left
    exact ⟨sequences'.trans sequences, machines'.trans machines⟩

end Kept

section Answers

def Shelf.Answered (rounds : Nat) (shelf : Shelf ω ν) (store : Store ω ν) (steps : List (Step ω ν))
    (answers : List (Answer ν)) : Prop :=
  ∃ entries, runSteps (Shelf.act rounds) shelf store steps = .ok entries ∧
    entries.map Entry.answer = answers

def Shelf.Answers (shelf : Shelf ω ν) (store : Store ω ν) (steps : List (Step ω ν))
    (answers : List (Answer ν)) : Prop :=
  ∃ enough, ∀ rounds, enough ≤ rounds → shelf.Answered rounds store steps answers

theorem answered_cons {step : Step ω ν} {steps : List (Step ω ν)} {answer : Answer ν}
    {answers : List (Answer ν)}
    (acted : shelf.act rounds step store = .ok (answer, shelf', store'))
    (later : shelf'.Answered rounds store' steps answers) :
    shelf.Answered rounds store (step :: steps) (answer :: answers) := by
  obtain ⟨entries, ran, rfl⟩ := later
  let notes := (store'.notes.extract store.notes.size store'.notes.size).toList
  exact ⟨⟨answer, notes⟩ :: entries, by simp only [runSteps, acted, ran, notes], rfl⟩

theorem answers_ask {query : Query ω ν} {x : Lazy ω ν (Answer ν)} {answer : Answer ν}
    (asked : shelf.ask query = .ok x)
    (returns : x.Returns store M fun found _ _ => found = answer) :
    shelf.Answers store [.ask query] [answer] := by
  obtain ⟨found, store₁, M₁, ⟨enough, settles⟩, -, rfl⟩ := returns
  exact ⟨enough, fun rounds more =>
    answered_cons (act_of_ask asked (settles rounds more)) ⟨[], rfl, rfl⟩⟩

theorem answers_list {how : Make ω ν} {x : Lazy ω ν (Sequence ν)} (name : String)
    (made : shelf.make how = .ok x)
    (returns : x.Returns store M fun t store' M' => t.Lists values store' M') :
    shelf.Answers store [.make name how, .ask (.list name)] [.stored, .items values] := by
  obtain ⟨t, store₁, M₁, ⟨enough, settles⟩, leaves, lists⟩ := returns
  have asked : ({ shelf with sequences := shelf.sequences.insert name t } : Shelf ω ν).ask
      (.list name) = .ok (Answer.items <$> t.toList) :=
    Names.find_eq_ok.mpr ⟨t, Names.lookup_insert.trans (if_pos rfl), rfl⟩
  have listed : (Answer.items <$> t.toList : Lazy ω ν (Answer ν)).Returns store₁ M₁
      fun found _ _ => found = .items values :=
    (Sequence.returns_toList leaves.ready lists).map.mono fun _ _ _ _ found => by
      obtain ⟨items, rfl, rfl⟩ := found
      rfl
  obtain ⟨enough', answered⟩ := answers_ask asked listed
  exact ⟨max enough enough', fun rounds more =>
    answered_cons (act_of_make made (settles rounds (by omega))) (answered rounds (by omega))⟩

end Answers

/-- One machine drives scans and folds of a sequence, any number of them in any order beside all other
steps that leave their names alone, and all show parts of its trace: the exclusive scan all but the
last value, the inclusive scan all but the first, and the fold the last. An accumulator folds as its
reduction folds, and scans as its reduction scans, any sequence at all. -/
theorem machine_drives_alike {steps : List (Step ω ν)}
    (left : (Shelf.empty : Shelf ω ν).leave rounds .empty steps = .ok (shelf, store))
    (found : shelf.sequences.lookup source = some s)
    (there : shelf.machines.lookup machine = some m) :
    (∀ f init, m = .accumulator f init →
      shelf.ask (.exclusiveFold source machine) = shelf.ask (.fold source init f) ∧
      shelf.make (.inclusiveScan source machine) = shelf.make (.derive source (.scan init f))) ∧
    ∀ fuel values last, s.toList fuel store = some (values, last) →
      ∃ before after result,
        before ++ [result] = m.value :: after ∧ before.length = values.length ∧
        m.trace values = m.value :: after ∧
        ∀ rounds' later shelf' store', (∀ step ∈ later, step.Spares source machine) →
          shelf.leave rounds' store later = .ok (shelf', store') → ∀ name,
            shelf'.machines.lookup machine = some m ∧
            shelf'.Answers store' [.make name (.exclusiveScan source machine), .ask (.list name)]
              [.stored, .items before] ∧
            shelf'.Answers store' [.make name (.inclusiveScan source machine), .ask (.list name)]
              [.stored, .items after] ∧
            shelf'.Answers store' [.ask (.exclusiveFold source machine)] [.value result] := by
  constructor
  · rintro f init rfl
    have folds : s.exclusiveFold (.accumulator f init) = s.foldM init f := bind_pure _
    constructor
    · simp only [Shelf.ask, Names.find, found, there, folds]
    · simp only [Shelf.make, Names.find, found, there]
      rfl
  · intro fuel values last listed
    obtain ⟨t, M, rfl, leaves, fits, once, -⟩ :=
      Twin.once_of_leave Store.ready_empty Twin.fits_empty Store.once_empty left
    have ready := leaves.ready
    have has := fits.has found
    obtain ⟨-, n, known⟩ := (Sequence.answers_toList ready has).came fuel values last listed
    obtain ⟨whole, rfl⟩ := Listing.all?_eq_some.mp known
    have lists : s.Lists (M.shown n s).known store M := ⟨has, Meaning.holds_iff.mpr ⟨n, whole⟩⟩
    refine ⟨(m.trace _).dropLast, (m.trace _).tail, _,
      Machine.trace_eq_concat.symm.trans Machine.trace_eq_cons, ?_, Machine.trace_eq_cons, ?_⟩
    · rw [List.length_dropLast, Machine.length_trace, Nat.add_sub_cancel]
    · intro rounds' later shelf' store' spares left' name
      obtain ⟨_, M', -, leaves', -⟩ := Twin.once_of_leave ready fits once left'
      obtain ⟨sequences, machines⟩ := lookup_leave spares left'
      have found' := sequences.trans found
      have there' := machines.trans there
      have lists' := lists.later ready leaves'
      refine ⟨there', ?_, ?_, ?_⟩
      · refine answers_list name ?_ (Sequence.returns_exclusiveScan m leaves'.ready lists')
        simp only [Shelf.make, Names.find, found', there']
      · refine answers_list name ?_ (Sequence.returns_inclusiveScan m leaves'.ready lists')
        simp only [Shelf.make, Names.find, found', there']
      · have folds : (Answer.value <$> s.exclusiveFold m : Lazy ω ν (Answer ν)).Returns store' M'
            fun found _ _ => found = .value (m.output ((M.shown n s).known.foldl
              (fun s value => (m.next s value).value) m.state)) :=
          (Sequence.returns_exclusiveFold m leaves'.ready lists').map.mono fun _ _ _ _ found => by
            obtain ⟨result, rfl, rfl⟩ := found
            rfl
        refine answers_ask ?_ folds
        simp only [Shelf.ask, Names.find, found', there']

/-- A machine that goes round 10, 20 and 30 drives scans and a fold of four elements, the same ones when
it has been stepped before and drives another scan. -/
theorem machine_drives_alike_cycle :
    ∃ (shelf shelf' : Shelf Nat Nat) (store store' : Store Nat Nat),
      (Shelf.empty : Shelf Nat Nat).leave 20 .empty
        [.make "items" (.items [1, 2, 3, 4]), .makeMachine "round" (.ready (.cycle 10 [20, 30]))] =
        .ok (shelf, store) ∧
      shelf.leave 20 store [.makeMachine "next" (.step "round" 0),
        .make "scan" (.inclusiveScan "items" "round")] =
        .ok (shelf', store') ∧
      shelf'.Answers store' [.make "scan" (.exclusiveScan "items" "round"), .ask (.list "scan")]
        [.stored, .items [10, 20, 30, 10]] ∧
      shelf'.Answers store' [.make "scan" (.inclusiveScan "items" "round"), .ask (.list "scan")]
        [.stored, .items [20, 30, 10, 20]] ∧
      shelf'.Answers store' [.ask (.exclusiveFold "items" "round")] [.value 20] := by
  obtain ⟨shelf, shelf', store, store', s, last, left, left', found, there, listed⟩ :
      ∃ (shelf shelf' : Shelf Nat Nat) (store store' : Store Nat Nat) (s : Sequence Nat)
        (last : Store Nat Nat),
        (Shelf.empty : Shelf Nat Nat).leave 20 .empty
          [.make "items" (.items [1, 2, 3, 4]),
            .makeMachine "round" (.ready (.cycle 10 [20, 30]))] = .ok (shelf, store) ∧
        shelf.leave 20 store [.makeMachine "next" (.step "round" 0),
          .make "scan" (.inclusiveScan "items" "round")] =
          .ok (shelf', store') ∧
        shelf.sequences.lookup "items" = some s ∧
        shelf.machines.lookup "round" = some (.cycle 10 [20, 30]) ∧
        s.toList 20 store = some ([1, 2, 3, 4], last) :=
    ⟨_, _, _, _, _, _, rfl, rfl, rfl, rfl, rfl⟩
  obtain ⟨before, after, result, same, -, traced, drives⟩ :=
    (machine_drives_alike left found there).2 20 [1, 2, 3, 4] last listed
  have trace : (Machine.cycle 10 [20, 30] : Machine Nat Nat Nat).trace [1, 2, 3, 4] =
      [10, 20, 30, 10, 20] := rfl
  rw [trace] at traced
  have both : before ++ [result] = [10, 20, 30, 10] ++ [20] := same.trans traced.symm
  obtain ⟨rfl, one⟩ := List.append_inj' both rfl
  obtain rfl : after = [20, 30, 10, 20] := (List.cons.inj traced).2.symm
  cases one
  obtain ⟨-, exclusive, inclusive, fold⟩ := drives 20 _ shelf' store' (by simp [Step.Spares]) left' "scan"
  exact ⟨shelf, shelf', store, store', left, left', exclusive, inclusive, fold⟩

end Program

end DemandLex
