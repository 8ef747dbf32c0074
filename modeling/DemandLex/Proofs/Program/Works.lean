import DemandLex.Proofs.Program.Refinement
import DemandLex.Proofs.Sequence.Development

/-! The steps of a program that take no notes of one's own, and what they do to the store. -/

namespace DemandLex.Program

open Filter Producer

variable {ω ν : Type} {mine : ω → Bool} {loud : String → Prop}

section Silent

def Tacit (mine : ω → Bool) (machine : Machine ω ν ν) : Prop :=
  ∀ s input, (machine.next s input).Silent mine

def Operator.Silent (mine : ω → Bool) : Operator ω ν → Prop
  | map f => ∀ value, (f value).Silent mine
  | filter keep => ∀ value, (keep value).Silent mine
  | dedup equal => ∀ last value, (equal last value).Silent mine
  | entries _ => True
  | scan _ f => ∀ reduced value, (f reduced value).Silent mine
  | scanFilter _ step => ∀ carried value, (step carried value).Silent mine
  | inclusiveScan machine => Tacit mine machine
  | exclusiveScan machine => Tacit mine machine
  | takeWhile keep => ∀ value, (keep value).Silent mine
  | take _ => True
  | flatScan _ step run =>
    (∀ carried value, (step carried value).Silent mine) ∧ ∀ seed, (run seed).Silent mine
  | goOn _ run => ∀ seed, (run seed).Silent mine

/-- The maker takes no notes of one's own; machines with a loud name may take such notes, and it does
not use these. -/
def Make.Silent (mine : ω → Bool) (loud : String → Prop) : Make ω ν → Prop
  | .unfold _ step => ∀ seed, (step seed).Silent mine
  | .cons _ _ notes => ∀ note ∈ notes, mine note = false
  | .derive _ operator => operator.Silent mine
  | .inclusiveScan _ machine => ¬ loud machine
  | .exclusiveScan _ machine => ¬ loud machine
  | .dropWhile _ drop => ∀ value, (drop value).Silent mine
  | .appendWith _ _ notes => ∀ note ∈ notes, mine note = false
  | .flatScan _ _ step run =>
    (∀ carried value, (step carried value).Silent mine) ∧ ∀ seed, (run seed).Silent mine
  | _ => True

def Query.Silent (mine : ω → Bool) (loud : String → Prop) : Query ω ν → Prop
  | .fold _ _ f => ∀ reduced value, (f reduced value).Silent mine
  | .exclusiveFold _ machine => ¬ loud machine
  | _ => True

def Step.Silent (mine : ω → Bool) (loud : String → Prop) : Step ω ν → Prop
  | .make _ how => how.Silent mine loud
  | .makeMachine name (.ready machine) => ¬ loud name → Tacit mine machine
  | .makeMachine _ (.step source _) => ¬ loud source
  | .makeMachine name (.copy source) => ¬ loud name → ¬ loud source
  | .ask query => query.Silent mine loud
  | _ => True

def Muted (mine : ω → Bool) (loud : String → Prop) (machines : Names (Machine ω ν ν)) : Prop :=
  ∀ name machine, machines.lookup name = some machine → ¬ loud name → Tacit mine machine

theorem Operator.Silent.apply {operator : Operator ω ν} (silent : operator.Silent mine)
    (s : Sequence ν) : Producer.Silent mine (operator.apply (.ofSequence s)).step := by
  have reads : Producer.Silent mine (reading (ω := ω) (ν := ν)) := silent_reading
  cases operator with
  | map f => exact silent_scanFilter reads fun _ value => (silent value).bind fun _ => Noted.silent_pure
  | filter keep =>
    exact silent_scanFilter reads fun _ value => (silent value).bind fun _ => Noted.silent_pure
  | dedup equal =>
    apply silent_scanFilter reads
    rintro (_ | last) value
    · exact Noted.silent_pure
    · apply (silent last value).bind
      rintro (_ | _)
      · exact Noted.silent_pure
      · exact Noted.silent_pure
  | entries pair =>
    exact silent_scanFilter (silent_scanFilter reads fun _ _ => Noted.silent_pure)
      fun _ _ => Noted.silent_pure
  | scan start f =>
    exact silent_scanFilter reads fun reduced value =>
      (silent reduced value).bind fun _ => Noted.silent_pure
  | scanFilter start step => exact silent_scanFilter reads silent
  | inclusiveScan machine =>
    exact silent_scanFilter reads fun s value => (silent s value).bind fun _ => Noted.silent_pure
  | exclusiveScan machine =>
    exact silent_scanFilter reads fun s value => (silent s value).bind fun _ => Noted.silent_pure
  | takeWhile keep => exact silent_takeWhile reads silent
  | take count => exact silent_take reads
  | flatScan start step run => exact silent_flatScan reads silent.1 (silent_play silent.2)
  | goOn seed run => exact silent_append reads (silent_play silent)

end Silent

namespace Twin

variable {t : Twin ω ν} {store store' : Store ω ν} {M : Meaning ν}

theorem Fits.has {name : String} {s : Sequence ν} (fits : t.Fits store M)
    (found : t.shelf.sequences.lookup name = some s) : store.Has s := by
  rw [shelf, Names.lookup_mapThings] at found
  obtain ⟨⟨s, c⟩, there, rfl⟩ := Option.map_eq_some_iff.mp found
  exact (fits name s c (Names.mem_of_lookup there)).has

section Works

theorem works_make {how : Make ω ν} {x : Lazy ω ν (Sequence ν)} (ready : store.Ready M)
    (fits : t.Fits store M) (muted : Muted mine loud t.machines) (silent : how.Silent mine loud)
    (made : t.shelf.make how = .ok x) :
    x.Works mine store M fun s store' => store'.Has s := by
  cases how with
  | empty =>
    cases made
    exact Lazy.works_pure Sequence.within_none
  | once value =>
    cases made
    exact Sequence.works_single ready Sequence.within_none (Or.inl rfl) trivial
  | constant value =>
    cases made
    exact Sequence.works_share ready (grounded_of_alone alone_unfold)
      (silent_play fun _ => Noted.silent_pure)
  | items values =>
    cases made
    refine Sequence.works_share ready (grounded_of_alone alone_unfold) (silent_play ?_)
    rintro (_ | ⟨item, later⟩)
    · exact Noted.silent_pure
    · exact Noted.silent_pure
  | unfold seed step =>
    cases made
    exact Sequence.works_share ready (grounded_of_alone alone_unfold) (silent_play silent)
  | prepend value source =>
    obtain ⟨s, found, made⟩ := Names.find_eq_ok.mp made
    cases made
    exact Sequence.works_single ready (fits.has found) (Or.inl rfl) trivial
  | cons value source notes =>
    obtain ⟨s, found, made⟩ := Names.find_eq_ok.mp made
    cases made
    exact Sequence.works_single ready (fits.has found) (Or.inr ⟨notes, rfl⟩)
      ⟨fun _ => Noted.silent_pure, silent⟩
  | copy source =>
    obtain ⟨s, found, made⟩ := Names.find_eq_ok.mp made
    cases made
    exact Lazy.works_pure (fits.has found)
  | rest source =>
    obtain ⟨s, found, made⟩ := Names.find_eq_ok.mp made
    cases made
    exact Sequence.works_rest ready (fits.has found)
  | derive source operator =>
    obtain ⟨s, found, made⟩ := Names.find_eq_ok.mp made
    cases made
    exact Sequence.works_share ready (grounded_operator operator (fits.has found)) (silent.apply s)
  | inclusiveScan source machine =>
    obtain ⟨s, found, made⟩ := Names.find_eq_ok.mp made
    obtain ⟨m, there, made⟩ := Names.find_eq_ok.mp made
    cases made
    have tacit : (Operator.inclusiveScan m).Silent mine := muted machine m there silent
    exact Sequence.works_share ready (grounded_operator (.inclusiveScan m) (fits.has found))
      (tacit.apply s)
  | exclusiveScan source machine =>
    obtain ⟨s, found, made⟩ := Names.find_eq_ok.mp made
    obtain ⟨m, there, made⟩ := Names.find_eq_ok.mp made
    cases made
    have tacit : (Operator.exclusiveScan m).Silent mine := muted machine m there silent
    exact Sequence.works_share ready (grounded_operator (.exclusiveScan m) (fits.has found))
      (tacit.apply s)
  | dropWhile source drop =>
    obtain ⟨s, found, made⟩ := Names.find_eq_ok.mp made
    cases made
    exact Sequence.works_dropWhile silent ready (fits.has found)
  | appendWith source other notes =>
    obtain ⟨s, found, made⟩ := Names.find_eq_ok.mp made
    obtain ⟨s', found', made⟩ := Names.find_eq_ok.mp made
    cases made
    exact Sequence.works_shareBefore ready ⟨grounded_reading (fits.has found), fits.has found'⟩
      silent_reading silent
  | flatten parts =>
    obtain ⟨ss, among, made⟩ := Names.findAll_eq_ok made
    cases made
    have has : ∀ s ∈ ss, store.Has s := by
      intro s inside
      obtain ⟨name, found⟩ := among s inside
      exact fits.has found
    refine Sequence.works_share ready (grounded_concatenation has) (silent_flatten ?_ silent_reading)
    apply silent_play
    rintro (_ | ⟨item, later⟩)
    · exact Noted.silent_pure
    · exact Noted.silent_pure
  | flatScan source start step run =>
    obtain ⟨s, found, made⟩ := Names.find_eq_ok.mp made
    cases made
    exact Sequence.works_share ready
      (grounded_startRuns start step t.shelf.begin (playEither run) (fits.has found)
        fun output => (fits.sameLimit_begin output).1)
      (silent_flatScan silent_reading
        (fun carried value => (silent.1 carried value).bind fun _ => Noted.silent_pure)
        (silent_playEither silent.2))
  | reverse source =>
    obtain ⟨s, found, made⟩ := Names.find_eq_ok.mp made
    cases made
    exact Sequence.works_reverse ready (fits.has found)

theorem works_ask {query : Query ω ν} {x : Lazy ω ν (Answer ν)} (ready : store.Ready M)
    (fits : t.Fits store M) (muted : Muted mine loud t.machines) (silent : query.Silent mine loud)
    (asked : t.shelf.ask query = .ok x) : x.Works mine store M fun _ _ => True := by
  cases query with
  | isEmpty source | first source =>
    obtain ⟨s, found, asked⟩ := Names.find_eq_ok.mp asked
    cases asked
    exact Lazy.works_pure trivial
  | size source | last source =>
    obtain ⟨s, found, asked⟩ := Names.find_eq_ok.mp asked
    cases asked
    exact (Sequence.works_foldM (fun _ _ => Noted.silent_pure) ready (fits.has found)).map ready
  | list source | text source render =>
    obtain ⟨s, found, asked⟩ := Names.find_eq_ok.mp asked
    cases asked
    exact (Sequence.works_toList ready (fits.has found)).map ready
  | iterTake source count =>
    obtain ⟨s, found, asked⟩ := Names.find_eq_ok.mp asked
    cases asked
    have visits : (s.iterTake count : Lazy ω ν (List ν)).Works mine store M fun _ _ => True :=
      (Sequence.works_iterateWhile ready (fits.has found)).bind ready
        fun _ _ _ _ _ => Lazy.works_pure trivial
    exact visits.map ready
  | splitFirst source | uncons source =>
    obtain ⟨s, found, asked⟩ := Names.find_eq_ok.mp asked
    cases asked
    exact (Sequence.works_splitFirst ready (fits.has found)).map ready
  | equal source other same =>
    obtain ⟨s, found, asked⟩ := Names.find_eq_ok.mp asked
    obtain ⟨s', found', asked⟩ := Names.find_eq_ok.mp asked
    cases asked
    exact (Sequence.works_equal ready (fits.has found) (fits.has found')).map ready
  | fold source start f =>
    obtain ⟨s, found, asked⟩ := Names.find_eq_ok.mp asked
    cases asked
    exact (Sequence.works_foldM silent ready (fits.has found)).map ready
  | exclusiveFold source machine =>
    obtain ⟨s, found, asked⟩ := Names.find_eq_ok.mp asked
    obtain ⟨m, there, asked⟩ := Names.find_eq_ok.mp asked
    cases asked
    have folds : (s.exclusiveFold m).Works mine store M fun _ _ => True :=
      (Sequence.works_foldM (muted machine m there silent) ready (fits.has found)).bind ready
        fun _ _ _ _ _ => Lazy.works_pure trivial
    exact folds.map ready

end Works

end Twin

section Act
variable {rounds : Nat} {shelf shelf' : Shelf ω ν} {store store' : Store ω ν} {answer : Answer ν}

theorem act_make {name : String} {how : Make ω ν}
    (acted : shelf.act rounds (.make name how) store = .ok (answer, shelf', store')) :
    ∃ x s, shelf.make how = .ok x ∧ x rounds store = some (s, store') ∧
      shelf' = { shelf with sequences := shelf.sequences.insert name s } := by
  rw [Shelf.act] at acted
  split at acted
  · cases acted
  · next x made =>
    rw [force] at acted
    cases came : x rounds store with
    | none =>
      rw [came] at acted
      cases acted
    | some found =>
      rw [came] at acted
      cases acted
      exact ⟨x, found.1, made, came, rfl⟩

theorem act_makeMachine {name : String} {how : MakeMachine ω ν}
    (acted : shelf.act rounds (.makeMachine name how) store = .ok (answer, shelf', store')) :
    ∃ made, shelf.makeMachine how = .ok made ∧ store' = store.log made.notes ∧
      shelf' = { shelf with machines := shelf.machines.insert name made.value } := by
  rw [Shelf.act] at acted
  split at acted
  · cases acted
  · next made came =>
    cases acted
    exact ⟨made, came, rfl, rfl⟩

theorem act_ask {query : Query ω ν}
    (acted : shelf.act rounds (.ask query) store = .ok (answer, shelf', store')) :
    ∃ x, shelf.ask query = .ok x ∧ x rounds store = some (answer, store') ∧ shelf' = shelf := by
  rw [Shelf.act] at acted
  split at acted
  · cases acted
  · next x asked =>
    rw [force] at acted
    cases came : x rounds store with
    | none =>
      rw [came] at acted
      cases acted
    | some found =>
      rw [came] at acted
      cases acted
      exact ⟨x, asked, came, rfl⟩

theorem act_of_make {name : String} {how : Make ω ν} {x : Lazy ω ν (Sequence ν)} {s : Sequence ν}
    (made : shelf.make how = .ok x) (came : x rounds store = some (s, store')) :
    shelf.act rounds (.make name how) store =
      .ok (.stored, { shelf with sequences := shelf.sequences.insert name s }, store') := by
  simp only [Shelf.act, made, force, came]

theorem act_of_ask {query : Query ω ν} {x : Lazy ω ν (Answer ν)}
    (asked : shelf.ask query = .ok x) (came : x rounds store = some (answer, store')) :
    shelf.act rounds (.ask query) store = .ok (answer, shelf, store') := by
  simp only [Shelf.act, asked, force, came]

theorem tacit_of_makeMachine {name : String} {how : MakeMachine ω ν} {made : Noted ω (Machine ω ν ν)}
    (muted : Muted mine loud shelf.machines) (silent : (Step.makeMachine name how).Silent mine loud)
    (came : shelf.makeMachine how = .ok made) :
    (∀ note ∈ made.notes, mine note = false) ∧ (¬ loud name → Tacit mine made.value) := by
  cases how with
  | ready machine =>
    cases came
    exact ⟨fun note none => (List.not_mem_nil none).elim, silent⟩
  | step source input =>
    obtain ⟨m, there, came⟩ := Names.find_eq_ok.mp came
    cases came
    have tacit := muted source m there silent
    exact ⟨tacit m.state input, fun _ => tacit⟩
  | copy source =>
    obtain ⟨m, there, came⟩ := Names.find_eq_ok.mp came
    cases came
    exact ⟨fun note none => (List.not_mem_nil none).elim,
      fun quiet => muted source m there (silent quiet)⟩

theorem muted_act {step : Step ω ν} (muted : Muted mine loud shelf.machines)
    (silent : step.Silent mine loud)
    (acted : shelf.act rounds step store = .ok (answer, shelf', store')) :
    Muted mine loud shelf'.machines := by
  cases step with
  | make name how =>
    obtain ⟨x, s, -, -, rfl⟩ := act_make acted
    exact muted
  | makeMachine name how =>
    obtain ⟨made, came, -, rfl⟩ := act_makeMachine acted
    intro other machine found quiet
    rw [Names.lookup_insert] at found
    split at found
    · next same =>
      cases found
      exact (tacit_of_makeMachine muted silent came).2 (same ▸ quiet)
    · exact muted other machine found quiet
  | ask query =>
    obtain ⟨x, -, -, rfl⟩ := act_ask acted
    exact muted
  | machineValue machine =>
    obtain ⟨m, -, same⟩ := Names.find_eq_ok.mp acted
    cases same
    exact muted
  | drop name =>
    cases acted
    exact muted

/-- A silent step takes no notes of one's own, whatever it forces. -/
theorem develops_act {t : Twin ω ν} {M : Meaning ν} {step : Step ω ν} (ready : store.Ready M)
    (fits : t.Fits store M) (muted : Muted mine loud t.machines) (silent : step.Silent mine loud)
    (acted : t.shelf.act rounds step store = .ok (answer, shelf', store')) :
    ∃ N, store.Develops mine M store' N := by
  cases step with
  | make name how =>
    obtain ⟨x, s, made, came, -⟩ := act_make acted
    obtain ⟨N, develops, -⟩ := Twin.works_make ready fits muted silent made rounds s store' came
    exact ⟨N, develops⟩
  | makeMachine name how =>
    obtain ⟨made, came, rfl, -⟩ := act_makeMachine acted
    exact ⟨M, Store.Develops.refl.note (tacit_of_makeMachine muted silent came).1⟩
  | ask query =>
    obtain ⟨x, asked, came, -⟩ := act_ask acted
    obtain ⟨N, develops, -⟩ := Twin.works_ask ready fits muted silent asked rounds answer store' came
    exact ⟨N, develops⟩
  | machineValue machine =>
    obtain ⟨m, -, same⟩ := Names.find_eq_ok.mp acted
    cases same
    exact ⟨M, .refl⟩
  | drop name =>
    cases acted
    exact ⟨M, .refl⟩

section Never

theorem Operator.silent_never (operator : Operator ω ν) : operator.Silent fun _ => false := by
  cases operator <;> simp [Operator.Silent, Tacit, Noted.Silent]

theorem Step.silent_never (step : Step ω ν) : step.Silent (fun _ => false) fun _ => False := by
  cases step with
  | make name how =>
    cases how with
    | derive source operator => exact operator.silent_never
    | _ => simp [Step.Silent, Make.Silent, Noted.Silent]
  | makeMachine name how => cases how <;> simp [Step.Silent, Tacit, Noted.Silent]
  | ask query => cases query <;> simp [Step.Silent, Query.Silent, Noted.Silent]
  | machineValue | drop => exact trivial

theorem muted_never {machines : Names (Machine ω ν ν)} : Muted (fun _ => false) loud machines :=
  fun _ _ _ _ _ _ _ _ => rfl

end Never

end Act

end DemandLex.Program
