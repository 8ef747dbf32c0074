import DemandLex.Proofs.Program.Lists
import DemandLex.Proofs.Sequence.Making

/-! Sequences made by the operators of programs go on as the list functions of these operators do. -/

namespace DemandLex.Program

open Filter Producer

variable {ω ν α β σ τ : Type} {store : Store ω ν} {M : Meaning ν} {s : Sequence ν}
  {c : Nat → Listing ν}

section Sources

theorem unfold_mono {step : σ → Option (ν × σ)} {seed : σ} :
    Monotone fun depth => Listing.unfold step depth seed := by
  apply monotone_nat_of_le_succ
  intro depth
  induction depth generalizing seed with
  | zero => exact Listing.unknown_le
  | succ depth ih =>
    rw [Listing.unfold, Listing.unfold]
    cases step seed with
    | none => exact le_rfl
    | some found => exact Listing.cons_le ih

theorem sameLimit_unfold {step : σ → Noted ω (Option (ν × σ))} {seed : σ} :
    Listing.SameLimit (fun n => given M (play step) n seed)
      fun n => Listing.unfold (fun seed => (step seed).value) n seed := by
  simp only [given_unfold]
  exact .refl unfold_mono

theorem makes_unfold {step : σ → Noted ω (Option (ν × σ))} {seed : σ} (ready : store.Ready M) :
    (Producer.unfold seed step).share.Makes store M
      fun depth => Listing.unfold (fun seed => (step seed).value) depth seed :=
  Sequence.makes_share ready (grounded_of_alone alone_unfold) sameLimit_unfold

theorem unfold_constant {value : ν} {depth : Nat} :
    Listing.unfold (fun _ : Unit => some (value, ())) depth () =
      ⟨List.replicate depth value, false⟩ := by
  induction depth with
  | zero => rfl
  | succ depth ih => exact congrArg (Listing.cons value) ih

theorem makes_constant {value : ν} (ready : store.Ready M) :
    (Producer.constant value : Producer ω ν ν).share.Makes store M
      fun depth => ⟨List.replicate depth value, false⟩ := by
  have made : (Producer.constant value : Producer ω ν ν).share.Makes store M
      fun depth => Listing.unfold (fun _ : Unit => some (value, ())) depth () := makes_unfold ready
  simpa only [unfold_constant] using made

theorem given_ofList (items : List α) {values : List α} {n : Nat} :
    given M (ofList items : Producer ω ν α).step n values =
      ⟨values.take n, decide (values.length < n)⟩ := by
  induction n generalizing values with
  | zero => simp [given, Listing.unknown]
  | succ n ih =>
    cases values with
    | nil => exact given_done rfl
    | cons value values =>
      refine (given_yield rfl).trans ((congrArg (Listing.cons value) ih).trans ?_)
      simp [Listing.cons]

theorem given_ofList_map {f : α → β} {items : List α} {n : Nat} :
    given M (ofList (items.map f) : Producer ω ν β).step n (items.map f) =
      (given M (ofList items : Producer ω ν α).step n items).map f := by
  rw [given_ofList, given_ofList]
  simp [Listing.map, Listing.through]

theorem sameLimit_ofList (items : List α) :
    Listing.SameLimit (fun n => given M (ofList items : Producer ω ν α).step n items)
      fun _ => .whole items := by
  refine (Listing.sameLimit_whole given_mono (n := items.length + 1) ?_).symm
  exact (given_ofList items).trans (by simp [Listing.whole])

theorem makes_ofList {items : List ν} (ready : store.Ready M) :
    (ofList items : Producer ω ν ν).share.Makes store M fun _ => .whole items :=
  Sequence.makes_share ready (grounded_of_alone alone_unfold) (sameLimit_ofList items)

end Sources

theorem sameLimit_takeWhile {p : Producer ω ν α} {d : Nat → Listing α} {keep : α → Noted ω Bool}
    (limit : Listing.SameLimit (fun n => given M p.step n p.state) d) :
    Listing.SameLimit (fun n => given M (p.takeWhile keep).step n p.state)
      fun n => (d n).takeWhile fun value => (keep value).value := by
  simp only [given_takeWhile]
  exact limit.map fun _ _ => Listing.takeWhile_le

section Runs

theorem keeps_grown {bound : Nat} {first sizes : Nat → Nat} {step : σ → Noted ω (Move ν σ α)}
    {s : σ} (grounded : Grounded bound step sizes s) (more : first ≤ sizes) :
    (step s).value.Keeps bound (fun sizes s => first ≤ sizes ∧ Grounded bound step sizes s)
      sizes := by
  have keeps := grounded.keeps
  cases move : (step s).value with
  | yield value next | skip next =>
    rw [move] at keeps
    exact ⟨more, keeps⟩
  | force node resume =>
    rw [move] at keeps
    obtain ⟨older, computed, resumes⟩ := keeps
    exact ⟨older, computed, fun sizes' later q within =>
      ⟨more.trans later, resumes sizes' later q within⟩⟩
  | done => exact trivial

section FlatScan
variable {R : Type} (start : τ) (step : τ → ν → Noted ω (τ × R)) (place : R → σ)
  (run : σ → Noted ω (Move ν σ ν))

def startRuns (s : Sequence ν) : Producer ω ν ν :=
  (Producer.ofSequence s).flatScan start (fun carried value => do
    let (next, output) ← step carried value
    pure (next, place output)) run

theorem grounded_startRuns (has : store.Has s)
    (grounded : ∀ r, Grounded store.spines.size run store.size (place r)) :
    Grounded store.spines.size (startRuns start step place run s).step store.size
      (startRuns start step place run s).state := by
  have reading := grounded_reading (ω := ω) has
  refine grounded_flatten (fun sizes t => store.size ≤ sizes ∧ Grounded _ _ sizes t)
    ⟨le_rfl, grounded_scanFilter reading⟩ ?_ ?_
  · exact fun sizes t inside => keeps_grown inside.2 inside.1
  · rintro sizes ⟨t, carried⟩ begun next ⟨more, -⟩ move
    rcases scanFilter_cases _ _ _ t carried with
      ⟨value, _, carried', output, -, given, same⟩ | ⟨value, _, carried', -, -, same⟩ |
      ⟨_, -, same⟩ | ⟨node, resume, -, same⟩ | ⟨-, same⟩ <;>
      cases same.symm.trans move
    cases given
    exact (grounded _).grow more

theorem sameLimit_startRuns {outs : Nat → R → Listing ν} (denotes : M.Denotes s c)
    (each : ∀ r, Listing.SameLimit (fun n => given M run n (place r)) fun n => outs n r) :
    Listing.SameLimit (fun n => given M (startRuns start step place run s).step n
        (startRuns start step place run s).state) fun n =>
      (((c n).through (outputs (fun carried value => (step carried value).value) start)).map
        (outs n)).flatten := by
  have limit := (sameLimit_reading (ω := ω)).trans denotes
  refine sameLimit_flatten (fun n => ?_)
    (limit.map fun _ _ => Listing.through_le (outputs_more _ start)) each
  refine given_scanFilter.trans ?_
  simp only [Listing.through, Listing.map, scanned_outputs, ← outputs_map]
  rfl

theorem startRuns_id {step : τ → ν → Noted ω (τ × σ)} :
    startRuns start step id run s = (Producer.ofSequence s).flatScan start step run := by
  have plain (carried : τ) (value : ν) :
      (step carried value >>= fun found => pure (found.1, id found.2)) = step carried value :=
    bind_pure _
  exact congrArg (fun step => (Producer.ofSequence s).flatScan start step run)
    (funext fun carried => funext fun value => plain carried value)

end FlatScan

section Concatenation

theorem grounded_concatenation {parts : List (Sequence ν)} (has : ∀ s ∈ parts, store.Has s) :
    Grounded store.spines.size (Producer.concatenation (ω := ω) parts).step store.size
      (Producer.concatenation (ω := ω) parts).state := by
  refine grounded_flatten (fun sizes (rest : List (Reading ν)) => store.size ≤ sizes ∧
    ∀ r ∈ rest, Grounded store.spines.size (Producer.reading (ω := ω)) store.size r)
    ⟨le_rfl, ?_⟩ ?_ ?_
  · intro r inside
    obtain ⟨s, among, rfl⟩ := List.mem_map.mp inside
    exact grounded_reading (has s among)
  · rintro sizes (_ | ⟨r, rest⟩) ⟨more, grounded⟩
    · exact trivial
    · exact ⟨more, fun r' inside => grounded r' (List.mem_cons_of_mem _ inside)⟩
  · rintro sizes (_ | ⟨r, rest⟩) begun next ⟨more, grounded⟩ move
    · cases move
    · cases move
      exact (grounded r List.mem_cons_self).grow more

theorem makes_concatenation {parts : List (Sequence ν × (Nat → Listing ν))} (ready : store.Ready M)
    (known : ∀ part ∈ parts, part.1.Known part.2 store M) :
    (Producer.concatenation (ω := ω) (parts.map Prod.fst)).share.Makes store M
      fun n => Listing.flatten (.whole (parts.map fun part => part.2 n)) := by
  have has : ∀ s ∈ parts.map Prod.fst, store.Has s := by
    intro s inside
    obtain ⟨part, among, rfl⟩ := List.mem_map.mp inside
    exact (known part among).has
  refine Sequence.makes_share ready (grounded_concatenation has) ?_
  obtain ⟨starts, rfl⟩ : ∃ starts : List { part : Sequence ν × (Nat → Listing ν) //
      part.1.Known part.2 store M }, starts.map Subtype.val = parts :=
    ⟨parts.attachWith _ known, List.attachWith_map_subtype_val known⟩
  have placed : ((starts.map Subtype.val).map Prod.fst).map Reading.here =
      starts.map fun part => .here part.1.1 := by simp [Function.comp_def]
  rw [Producer.concatenation, placed]
  have each (part : { part : Sequence ν × (Nat → Listing ν) // part.1.Known part.2 store M }) :
      Listing.SameLimit (fun n => given M (Producer.reading (ω := ω)) n (.here part.1.1))
        part.1.2 := sameLimit_reading.trans part.2.denotes
  have same (n : Nat) : Listing.flatten (.whole ((starts.map Subtype.val).map
      fun part => part.2 n)) = ((Listing.whole starts).map fun part => part.1.2 n).flatten := by
    rw [List.map_map]
    rfl
  simp only [same]
  exact sameLimit_flatten (fun n => given_ofList_map) (sameLimit_ofList (ω := ω) starts) each

end Concatenation

end Runs

section Operator

theorem grounded_operator (operator : Operator ω ν) (has : store.Has s) :
    Grounded store.spines.size (operator.apply (.ofSequence s)).step store.size
      (operator.apply (.ofSequence s)).state := by
  have grounded := grounded_reading (ω := ω) has
  cases operator with
  | map | filter | dedup | scan | scanFilter | inclusiveScan | exclusiveScan =>
    exact grounded_scanFilter grounded
  | entries => exact grounded_scanFilter (grounded_scanFilter grounded)
  | takeWhile => exact grounded_takeWhile grounded
  | take => exact grounded_take grounded
  | flatScan start step run =>
    rw [Operator.apply, ← startRuns_id]
    exact grounded_startRuns start step id _ has fun _ => grounded_play
  | goOn => exact grounded_append grounded (grounded_of_alone alone_unfold)

theorem sameLimit_operator (operator : Operator ω ν) (denotes : M.Denotes s c) :
    Listing.SameLimit (fun n => given M (operator.apply (.ofSequence s)).step n
        (operator.apply (.ofSequence s)).state)
      fun depth => operator.onLists depth (c depth) := by
  have limit := (sameLimit_reading (ω := ω)).trans denotes
  cases operator with
  | map f => exact sameLimit_scanned limit scanned_map
  | filter keep => exact sameLimit_scanned limit scanned_filter
  | dedup equal => exact sameLimit_scanned limit scanned_dedup
  | entries pair =>
    have same (n : Nat) : (c n).through (fun values => values.mapIdx pair) =
        ((c n).through (scanned (fun index value => (pure (index + 1, some (index, value)) :
          Noted ω (Nat × Option (Nat × ν)))) 0)).through
            (List.map fun entry => pair entry.1 entry.2) := by
      simp only [Listing.through, scanned_entries]
    simp only [Operator.onLists, same]
    exact sameLimit_scanned (sameLimit_scanFilter limit) fun values => scanned_map values
  | scan start f =>
    exact sameLimit_scanned limit fun values => (scanned_inclusive values).trans (List.map_id _)
  | scanFilter start step => exact sameLimit_scanFilter limit
  | inclusiveScan m => exact sameLimit_scanned limit scanned_inclusive
  | exclusiveScan m => exact sameLimit_scanned limit scanned_exclusive
  | takeWhile keep => exact sameLimit_takeWhile limit
  | take count => exact sameLimit_take.trans (limit.map fun _ _ => Listing.take_le)
  | flatScan start step run =>
    rw [Operator.apply, ← startRuns_id]
    exact sameLimit_startRuns start step id (play run) denotes fun _ => sameLimit_unfold
  | goOn seed run => exact sameLimit_append limit sameLimit_unfold

theorem makes_operator (operator : Operator ω ν) (ready : store.Ready M)
    (known : s.Known c store M) :
    (operator.apply (.ofSequence s)).share.Makes store M
      fun depth => operator.onLists depth (c depth) :=
  Sequence.makes_share ready (grounded_operator operator known.has)
    (sameLimit_operator operator known.denotes)

end Operator

end DemandLex.Program
