import DemandLex.Proofs.Program.Operators

/-! Programs over lists that end come to an answer to every question, whatever the depth from some depth
on. -/

namespace DemandLex.Program

open Filter

universe u v

variable {ω ν : Type}

section Ended
variable {σ R : Type}

/-- From some depth on the lists are one list that ends. -/
def Settled (c : Nat → Listing ν) : Prop :=
  ∃ l, l.complete = true ∧ ∀ᶠ depth in atTop, c depth = l

theorem settled_const {l : Listing ν} (whole : l.complete = true) : Settled fun _ => l :=
  ⟨l, whole, .of_forall fun _ => rfl⟩

theorem Finishes.settled {step : σ → Noted ω (Option (ν × σ))} {seed : σ}
    (finishes : Finishes step seed) :
    Settled fun depth => Listing.unfold (fun seed => (step seed).value) depth seed := by
  obtain ⟨last, complete⟩ := finishes
  refine ⟨_, complete, ?_⟩
  filter_upwards [eventually_ge_atTop last] with depth later
  exact (unfold_mono later).2 complete

theorem settled_flatten {starts : Listing R} {outs : Nat → R → Listing ν}
    (whole : starts.complete = true) (each : ∀ r ∈ starts.known, Settled fun depth => outs depth r) :
    Settled fun depth => (starts.map (outs depth)).flatten := by
  obtain ⟨known, complete⟩ := starts
  cases whole
  induction known with
  | nil => exact ⟨.whole [], rfl, .of_forall fun _ => rfl⟩
  | cons r later ih =>
    obtain ⟨first, complete, eventually⟩ := each r List.mem_cons_self
    obtain ⟨rest, complete', eventually'⟩ := ih fun r inside => each r (List.mem_cons_of_mem _ inside)
    refine ⟨first.append rest, by simp [Listing.append, complete, complete'], ?_⟩
    filter_upwards [eventually, eventually'] with depth same same'
    rw [← same, ← same']
    rfl

theorem mem_outputs {τ : Type} {step : τ → ν → τ × R} {start : τ} {values : List ν} {r : R}
    (inside : r ∈ Producer.outputs step start values) :
    ∃ carried value, r = (step carried value).2 := by
  induction values generalizing start with
  | nil => cases inside
  | cons value values ih =>
    rcases List.mem_cons.mp inside with same | later
    · exact ⟨start, value, same⟩
    · exact ih later

theorem Operator.Ends.settled {operator : Operator ω ν} {l : Listing ν} (ends : operator.Ends)
    (whole : l.complete = true) : Settled fun depth => operator.onLists depth l := by
  cases operator with
  | takeWhile keep => exact settled_const (by simp [whole])
  | take count => exact settled_const (by simp [whole])
  | flatScan start step run =>
    simp only [onLists]
    refine settled_flatten whole fun r inside => ?_
    obtain ⟨carried, value, rfl⟩ := mem_outputs inside
    exact (ends carried value).settled
  | goOn seed run =>
    obtain ⟨behind, complete, same⟩ := Finishes.settled ends
    refine ⟨l.append behind, by simp [Listing.append, whole, complete], ?_⟩
    exact same.mono fun depth same => congrArg l.append same
  | _ => exact settled_const whole

end Ended

section Find
variable {α : Type u} {σ : Type v} {P : α → Prop} {names : Names σ} {name : String}

def Ended (P : α → Prop) (x : Nat → Except Failure α) : Prop :=
  (∃ name, ∀ᶠ depth in atTop, x depth = .error (.unknownName name)) ∨
    ∃ a, P a ∧ ∀ᶠ depth in atTop, x depth = .ok a

theorem ended_ok {a : α} (holds : P a) : Ended P fun _ => .ok a :=
  Or.inr ⟨a, holds, .of_forall fun _ => rfl⟩

theorem Settled.ended {c : Nat → Listing ν} (settled : Settled c) :
    Ended (fun l : Listing ν => l.complete = true) fun depth => .ok (c depth) := by
  obtain ⟨l, whole, same⟩ := settled
  exact Or.inr ⟨l, whole, same.mono fun depth same => congrArg _ same⟩

theorem ended_find {next : Nat → σ → Except Failure α}
    (found : ∀ thing, (name, thing) ∈ names → Ended P fun depth => next depth thing) :
    Ended P fun depth => names.find name (next depth) := by
  cases known : names.lookup name with
  | none => exact Or.inl ⟨name, .of_forall fun depth => by simp only [Names.find, known]⟩
  | some thing =>
    simp only [Names.find, known]
    exact found thing (Names.mem_of_lookup known)

theorem ended_findAll {wanted : List String}
    {next : Nat → List σ → Except Failure α}
    (found : ∀ things, (∀ thing ∈ things, ∃ name, (name, thing) ∈ names) →
      Ended P fun depth => next depth things) :
    Ended P fun depth => names.findAll wanted (next depth) := by
  induction wanted generalizing next with
  | nil => exact found [] fun thing none => by cases none
  | cons name later ih =>
    refine ended_find fun first there => ih fun others among => found _ ?_
    intro thing inside
    rcases List.mem_cons.mp inside with rfl | inside
    · exact ⟨name, there⟩
    · exact among thing inside

end Find

namespace ListShelf
variable {shelf : ListShelf ω ν}

def Whole (shelf : ListShelf ω ν) : Prop := ∀ name l, (name, l) ∈ shelf.lists → l.complete = true

theorem Whole.settled_begin {R : Type} {run : R → Noted ω (Option (ν × R))} {output : String ⊕ R}
    (whole : shelf.Whole) (ends : ∀ seed, output = .inr seed → Finishes run seed) :
    Settled fun depth => shelf.begin depth run output := by
  cases output with
  | inl name =>
    cases found : shelf.lists.lookup name with
    | none => exact ⟨.whole [], rfl, .of_forall fun depth => by simp only [begin, found, Option.getD]⟩
    | some l =>
      exact ⟨l, whole name l (Names.mem_of_lookup found),
        .of_forall fun depth => by simp only [begin, found, Option.getD]⟩
  | inr seed => exact (ends seed rfl).settled

theorem ended_make {how : Make ω ν} (whole : shelf.Whole) (ends : how.Ends) :
    Ended (fun l : Listing ν => l.complete = true) fun depth => shelf.make depth how := by
  have source {name : String} {next : Nat → Listing ν → Except Failure (Listing ν)}
      (found : ∀ l, l.complete = true → Ended (fun l : Listing ν => l.complete = true)
        fun depth => next depth l) : Ended (fun l : Listing ν => l.complete = true)
          fun depth => shelf.lists.find name (next depth) :=
    ended_find fun l there => found l (whole name l there)
  cases how with
  | empty | once value | items values => exact (settled_const rfl).ended
  | constant value => cases ends
  | unfold seed step => exact (Finishes.settled ends).ended
  | prepend | cons | copy | rest | dropWhile =>
    refine source fun l complete => (settled_const ?_).ended
    exact complete
  | derive name operator =>
    exact source fun l complete => (Operator.Ends.settled ends complete).ended
  | inclusiveScan name machine | exclusiveScan name machine =>
    refine source fun l complete => ended_find fun m _ => (settled_const ?_).ended
    exact complete
  | appendWith name other notes =>
    refine source fun l complete => source fun r complete' => (settled_const ?_).ended
    simp [Listing.append, complete, complete']
  | flatten parts =>
    refine ended_findAll fun ls among => ?_
    have each (l : Listing ν) (inside : l ∈ ls) : Settled fun _ => l := by
      obtain ⟨name, there⟩ := among l inside
      exact settled_const (whole name l there)
    have flat : Settled fun _ => ((Listing.whole ls).map fun l => l).flatten :=
      settled_flatten rfl each
    simpa [Listing.map, Listing.through, Listing.whole] using flat.ended
  | flatScan name start step run =>
    refine source fun l complete => Settled.ended (settled_flatten ?_ fun output inside => ?_)
    · exact complete
    · obtain ⟨carried, value, same⟩ := mem_outputs inside
      exact whole.settled_begin fun seed started => ends carried value seed (same.symm.trans started)
  | reverse name =>
    refine source fun l complete => (settled_const ?_).ended
    simp [Listing.reverse, complete, Listing.whole]

theorem ended_ask {query : Query ω ν} (whole : shelf.Whole)
    (plain : (Step.ask query).compares = false) :
    Ended (fun answer : Option (Answer ν) => answer.isSome = true) fun _ => shelf.ask query := by
  have source {name : String} {f : Listing ν → Option (Answer ν)}
      (known : ∀ l, l.complete = true → (f l).isSome = true) :
      Ended (fun answer : Option (Answer ν) => answer.isSome = true)
        fun _ => shelf.lists.find name fun l => .ok (f l) :=
    ended_find fun l there => ended_ok (known l (whole name l there))
  cases query with
  | isEmpty | first =>
    refine source fun l complete => ?_
    simp [Listing.first?, Listing.isHeaded, complete]
  | size | list | text | last | fold =>
    refine source fun l complete => ?_
    simp [Listing.all?, complete]
  | iterTake name count =>
    refine source fun l complete => ?_
    simp [Listing.take?, complete]
  | splitFirst name | uncons name =>
    refine source fun l complete => ?_
    rcases l with ⟨_ | ⟨value, values⟩, ends⟩ <;> cases complete <;> rfl
  | equal => cases plain
  | exclusiveFold name machine =>
    refine ended_find fun l there => ended_find fun m _ => ended_ok ?_
    simp [Listing.all?, whole name l there]

theorem Whole.insert {name : String} {l : Listing ν} (whole : shelf.Whole)
    (complete : l.complete = true) :
    ({ shelf with lists := shelf.lists.insert name l } : ListShelf ω ν).Whole := by
  intro name' l' there
  rcases List.mem_cons.mp there with same | older
  · cases same
    exact complete
  · exact whole name' l' older

/-- A step comes to an answer from some depth on, or looks for a name that is not there. -/
theorem ended_act {step : Step ω ν} (whole : shelf.Whole) (ends : step.Ends)
    (plain : step.compares = false) :
    Ended (fun r : Answer ν × ListShelf ω ν => r.2.Whole) fun depth => shelf.act depth step := by
  cases step with
  | make name how =>
    rcases ended_make whole ends with ⟨missing, fails⟩ | ⟨l, complete, made⟩
    · exact Or.inl ⟨missing, fails.mono fun depth fails => by simp only [act, fails]⟩
    · refine Or.inr ⟨(.stored, { shelf with lists := shelf.lists.insert name l }),
        whole.insert complete, ?_⟩
      filter_upwards [made] with depth made
      have headed : l.isHeaded = true := by simp [Listing.isHeaded, complete]
      simp only [act, made, headed, if_true]
  | makeMachine name how =>
    have found : Ended (fun _ => True) fun _ =>
        (⟨[], shelf.machines⟩ : Shelf ω ν).makeMachine how := by
      cases how with
      | ready m => exact ended_ok trivial
      | step source input => exact ended_find fun m _ => ended_ok trivial
      | copy source => exact ended_find fun m _ => ended_ok trivial
    rcases found with ⟨missing, fails⟩ | ⟨m, -, made⟩
    · exact Or.inl ⟨missing, fails.mono fun depth fails => by simp only [act, fails]⟩
    · refine Or.inr ⟨(.stored, { shelf with machines := shelf.machines.insert name m.value }),
        whole, ?_⟩
      filter_upwards [made] with depth made
      simp only [act, made]
  | ask query =>
    rcases ended_ask whole plain with ⟨missing, fails⟩ | ⟨answer, known, asked⟩
    · exact Or.inl ⟨missing, fails.mono fun depth fails => by simp only [act, fails]⟩
    · obtain ⟨answer, rfl⟩ := Option.isSome_iff_exists.mp known
      refine Or.inr ⟨(answer, shelf), whole, ?_⟩
      filter_upwards [asked] with depth asked
      simp only [act, asked]
  | machineValue machine => exact ended_find fun m _ => ended_ok whole
  | drop name => exact ended_ok fun name l there => whole name l (List.mem_of_mem_filter there)

theorem ended_run {steps : List (Step ω ν)} (whole : shelf.Whole)
    (ends : ∀ step ∈ steps, step.Ends) (plain : ∀ step ∈ steps, step.compares = false) :
    Ended (fun _ => True) fun depth => shelf.run depth steps := by
  induction steps generalizing shelf with
  | nil => exact ended_ok trivial
  | cons step later ih =>
    rcases ended_act whole (ends step List.mem_cons_self) (plain step List.mem_cons_self) with
      ⟨missing, fails⟩ | ⟨⟨answer, shelf'⟩, whole', acted⟩
    · exact Or.inl ⟨missing, fails.mono fun depth fails => by simp only [run, fails]⟩
    · rcases ih whole' (fun step inside => ends step (List.mem_cons_of_mem _ inside))
        (fun step inside => plain step (List.mem_cons_of_mem _ inside)) with
        ⟨missing, fails⟩ | ⟨answers, -, ran⟩
      · refine Or.inl ⟨missing, ?_⟩
        filter_upwards [acted, fails] with depth acted fails
        simp only [run, acted, fails]
        rfl
      · refine Or.inr ⟨answer :: answers, trivial, ?_⟩
        filter_upwards [acted, ran] with depth acted ran
        simp only [run, acted, ran]
        rfl

end ListShelf

end DemandLex.Program
