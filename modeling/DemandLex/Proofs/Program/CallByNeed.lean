import DemandLex.Proofs.Program.Calls
import DemandLex.Proofs.Program.Leaving
import Mathlib.Order.Filter.AtTopBot.Basic

/-! Call by need over whole runs: no rest is computed twice, what was computed stays what it is, and what
a maker calls are the calls on the elements of its sources, each made once and in their order. -/

namespace DemandLex.Program

open Filter Producer

variable {ω ν : Type} {mine : ω → Bool} {loud : String → Prop} {M : Meaning ν}
  {store store' : Store ω ν}

/-- What is heard behind a maker is a beginning of its calls, whatever is forced. -/
inductive Overheard (mine : ω → Bool) (M : Meaning ν) (id : Nat) (calls : Nat → List ω)
    (store : Store ω ν) : Prop
  | quiet (quiet : store.Quiet mine fun _ => True)
      (le : ∀ᶠ depth in atTop, store.heard mine <+: (calls depth).filter mine)
  | tracks {source : Producer ω ν ν} {tail : Noted ω (Sequence ν)}
      (tracks : store.Tracks mine M id source tail)
      (le : ∀ n, ∀ᶠ depth in atTop,
        (notesOf M source.step n source.state).known ++ tail.notes <+: calls depth)

namespace Overheard
variable {id : Nat} {calls : Nat → List ω}

theorem heard (overheard : Overheard mine M id calls store) :
    ∀ᶠ depth in atTop, store.heard mine <+: (calls depth).filter mine := by
  cases overheard with
  | quiet quiet le => exact le
  | tracks tracks le =>
    obtain ⟨n, heard⟩ := tracks.heard_prefix
    exact (le n).mono fun depth le => heard.trans (le.filter mine)

theorem develops {K N : Meaning ν} (overheard : Overheard mine K id calls store)
    (ready : store.Ready M) (agree : K.Agree M id) (develops : store.Develops mine M store' N) :
    Overheard mine K id calls store' := by
  cases overheard with
  | quiet quiet le =>
    obtain ⟨quiet', same⟩ := develops.quiet ready quiet
    exact .quiet quiet' (by rw [same]; exact le)
  | tracks tracks le => exact .tracks (develops.tracks ready tracks agree) le

end Overheard

section Make
variable {s : Sequence ν} {c : Nat → Listing ν}

theorem le_calls_operator (operator : Operator ω ν) (known : s.Known c store M) (n : Nat) :
    ∀ᶠ depth in atTop, (notesOf M (operator.apply (.ofSequence s)).step n
      (operator.apply (.ofSequence s)).state).known <+: operator.calls depth (c depth) := by
  have limit := (sameLimit_reading (ω := ω)).trans known.denotes
  filter_upwards [limit.le n, eventually_ge_atTop n] with depth le deeper
  exact (notesOf_operator operator n).trans (operator.calls_le deeper le)

theorem overheard_operator {rounds : Nat} {q : Sequence ν} (operator : Operator ω ν)
    (ready : store.Ready M) (known : s.Known c store M) (quiet : store.Quiet mine fun _ => True)
    (unheard : store.heard mine = [])
    (came : (operator.apply (.ofSequence s)).share rounds store = some (q, store')) :
    Overheard mine M store.spines.size (fun depth => operator.calls depth (c depth)) store' := by
  have tracks := Store.tracks_of_share quiet unheard ready
    (shareable_of_grounded (grounded_operator operator known.has)) came
  refine .tracks tracks fun n => ?_
  filter_upwards [le_calls_operator operator known n] with depth le
  rwa [Noted.notes_pure, List.append_nil]

namespace Twin
variable {t : Twin ω ν} {name : String}

theorem Fits.known_of_lookup (fits : t.Fits store M)
    (found : t.shelf.sequences.lookup name = some s) :
    ∃ c, s.Known c store M ∧ ∀ depth, (t.lists depth).lists.lookup name = some (c depth) := by
  rw [shelf, Names.lookup_mapThings] at found
  obtain ⟨⟨s, c⟩, there, rfl⟩ := Option.map_eq_some_iff.mp found
  refine ⟨c, fits name s c (Names.mem_of_lookup there), fun depth => ?_⟩
  rw [lists, Names.lookup_mapThings, there]
  rfl

theorem notesOf_begin_le {R : Type} {run : R → Noted ω (Option (ν × R))} {n depth : Nat}
    (deeper : n ≤ depth) (output : String ⊕ R) :
    notesOf M (playEither run) n (t.shelf.begin output) ≤ startNotes run depth output := by
  cases output with
  | inl name =>
    have lifted : notesOf M (playEither run) n (t.shelf.begin (.inl name)) =
        notesOf M reading n (.here (t.shelf.sequences.lookup name).join) :=
      notesOf_lift Sum.inl fun _ => rfl
    rw [lifted]
    exact notesOf_le_nil fun _ => rfl
  | inr seed =>
    have lifted : notesOf M (playEither run) n (t.shelf.begin (.inr seed)) =
        notesOf M (play run) n seed := notesOf_lift Sum.inr fun _ => rfl
    rw [lifted, notesOf_play]
    exact growthNotes_mono deeper

/-- A maker that takes notes of one's own, all others being silent. -/
theorem overheard_make {how : Make ω ν} {x : Lazy ω ν (Sequence ν)} {rounds : Nat}
    (ready : store.Ready M) (fits : t.Fits store M) (muted : Muted mine loud t.machines)
    (quiet : store.Quiet mine fun _ => True) (unheard : store.heard mine = [])
    (made : t.shelf.make how = .ok x) (came : x rounds store = some (s, store')) :
    Overheard mine M store.spines.size (fun depth => (t.lists depth).calls depth how) store' := by
  -- a step without notes of one's own leaves nothing to be heard
  have still (silent : how.Silent mine loud) : Overheard mine M store.spines.size
      (fun depth => (t.lists depth).calls depth how) store' := by
    obtain ⟨N, develops, -⟩ := works_make ready fits muted silent made rounds s store' came
    obtain ⟨quiet', same⟩ := develops.quiet ready quiet
    exact .quiet quiet' (.of_forall fun depth => by rw [same, unheard]; exact List.nil_prefix)
  cases how with
  | empty | once | constant | items | prepend | copy | rest | flatten | reverse => exact still trivial
  | unfold seed step =>
    cases made
    have tracks := Store.tracks_of_share quiet unheard ready
      (shareable_of_grounded (grounded_of_alone alone_unfold)) came
    refine .tracks tracks fun n => ?_
    filter_upwards [eventually_ge_atTop n] with depth deeper
    simp only [Noted.notes_pure, List.append_nil]
    have played : notesOf M (play step) n seed ≤ growthNotes step depth seed :=
      notesOf_play.trans_le (growthNotes_mono deeper)
    exact played.1
  | cons value source notes =>
    obtain ⟨s', found, made⟩ := Names.find_eq_ok.mp made
    cases made
    cases came
    refine .tracks (Store.tracks_pushed quiet unheard) fun n => .of_forall fun depth => ?_
    rw [List.prefix_nil.mp (notesOf_le_nil fun _ => rfl).1]
    exact List.prefix_refl _
  | derive source operator =>
    obtain ⟨s', found, made⟩ := Names.find_eq_ok.mp made
    cases made
    obtain ⟨c, known, lists⟩ := fits.known_of_lookup found
    simp only [ListShelf.calls, lists, Option.elim_some]
    exact overheard_operator operator ready known quiet unheard came
  | inclusiveScan source machine =>
    obtain ⟨s', found, made⟩ := Names.find_eq_ok.mp made
    obtain ⟨m, there, made⟩ := Names.find_eq_ok.mp made
    cases made
    obtain ⟨c, known, lists⟩ := fits.known_of_lookup found
    have there' (depth : Nat) : (t.lists depth).machines.lookup machine = some m := there
    simp only [ListShelf.calls, lists, there', Option.elim_some]
    exact overheard_operator (.inclusiveScan m) ready known quiet unheard came
  | exclusiveScan source machine =>
    obtain ⟨s', found, made⟩ := Names.find_eq_ok.mp made
    obtain ⟨m, there, made⟩ := Names.find_eq_ok.mp made
    cases made
    obtain ⟨c, known, lists⟩ := fits.known_of_lookup found
    have there' (depth : Nat) : (t.lists depth).machines.lookup machine = some m := there
    simp only [ListShelf.calls, lists, there', Option.elim_some]
    exact overheard_operator (.exclusiveScan m) ready known quiet unheard came
  | dropWhile source drop =>
    obtain ⟨s', found, made⟩ := Names.find_eq_ok.mp made
    cases made
    obtain ⟨c, known, lists⟩ := fits.known_of_lookup found
    obtain ⟨quiet', n, heard⟩ := Sequence.heard_of_dropWhile ready known.has quiet unheard came
    refine .quiet quiet' ?_
    filter_upwards [known.denotes.le n] with depth le
    simp only [ListShelf.calls, lists, Option.elim_some]
    exact heard.trans ((whileNotes_le le).filter mine)
  | appendWith source other notes =>
    obtain ⟨s', found, made⟩ := Names.find_eq_ok.mp made
    obtain ⟨s'', found', made⟩ := Names.find_eq_ok.mp made
    cases made
    have tracks := Store.tracks_of_share quiet unheard ready
      ⟨grounded_reading (fits.has found), fits.has found'⟩ came
    refine .tracks tracks fun n => .of_forall fun depth => ?_
    rw [List.prefix_nil.mp (notesOf_le_nil fun _ => rfl).1]
    exact List.prefix_refl _
  | flatScan source start step run =>
    obtain ⟨s', found, made⟩ := Names.find_eq_ok.mp made
    cases made
    obtain ⟨c, known, lists⟩ := fits.known_of_lookup found
    have tracks := Store.tracks_of_share quiet unheard ready
      (shareable_of_grounded (grounded_startRuns start step t.shelf.begin (playEither run) known.has
        fun output => (fits.sameLimit_begin output).1)) came
    refine .tracks tracks fun n => ?_
    have limit := (sameLimit_reading (ω := ω)).trans known.denotes
    filter_upwards [limit.le n, eventually_ge_atTop n] with depth le deeper
    simp only [Noted.notes_pure, List.append_nil, ListShelf.calls, lists, Option.elim_some]
    have started : runNotes step (fun r => notesOf M (playEither run) n (t.shelf.begin r)) start
        (given M (reading (ω := ω)) n (.here s')) ≤
          runNotes step (startNotes run depth) start (c depth) :=
      runNotes_le (notesOf_begin_le deeper) le
    exact (notesOf_startRuns_le.trans started).1

end Twin

end Make

section Leave
variable {t : Twin ω ν} {rounds : Nat} {shelf' : Shelf ω ν}

namespace Twin

theorem once_of_leave {steps : List (Step ω ν)} (ready : store.Ready M) (fits : t.Fits store M)
    (once : store.Once) (left : t.shelf.leave rounds store steps = .ok (shelf', store')) :
    ∃ t' M', shelf' = Twin.shelf t' ∧ store.Leaves M store' M' ∧ Twin.Fits t' store' M' ∧
      store'.Once ∧ store.Adds store' := by
  obtain ⟨t', M', same, leaves, fits', -, kept, -⟩ := leave_keeps (K := M)
    (I := fun store₁ => store₁.Once ∧ store.Adds store₁)
    (fun store₁ M store₂ N ready _ kept develops =>
      ⟨develops.once ready kept.1, kept.2.trans develops.adds⟩)
    ready fits muted_never (fun step _ => step.silent_never) (fun _ _ => rfl) le_rfl
    ⟨once, .refl store⟩ left
  exact ⟨t', M', same, leaves, fits', kept⟩

theorem rest_of_leave {node : Node} (ready : store.Ready M) (fits : t.Fits store M)
    (once : store.Once) (inside : node ∈ store.runs) :
    ∃ q, ∀ rounds (later : List (Step ω ν)) shelf' store',
      t.shelf.leave rounds store later = .ok (shelf', store') →
        ∀ fuel, Store.rest (fuel + 1) node store' = some (q, store') := by
  obtain ⟨q, follows, -⟩ := (once.begun node inside).rest_eq ready
  refine ⟨q, fun rounds later shelf' store' left => ?_⟩
  obtain ⟨t', M', -, leaves, -, once', adds⟩ := once_of_leave ready fits once left
  have inside' : node ∈ store'.runs :=
    Array.mem_toList_iff.mp (adds.runs.subset (Array.mem_toList_iff.mpr inside))
  obtain ⟨q', follows', found⟩ := (once'.begun node inside').rest_eq leaves.ready
  obtain ⟨spine, present, -⟩ := once.begun node inside
  have older := (Array.getElem?_eq_some_iff.mp present).1
  cases (leaves.agree.after older).symm.trans follows' |>.symm.trans follows
  exact found

/-- What is heard of a program in which one maker only takes notes of one's own. -/
theorem heard_of_leave {before after : List (Step ω ν)} {name : String} {how : Make ω ν}
    (ready : store.Ready M) (fits : t.Fits store M) (muted : Muted mine loud t.machines)
    (quiet : store.Quiet mine fun _ => True) (unheard : store.heard mine = [])
    (silent : ∀ step ∈ before ++ after, step.Silent mine loud)
    (left : t.shelf.leave rounds store (before ++ .make name how :: after) = .ok (shelf', store')) :
    ∀ᶠ depth in atTop, ∃ shelf, (t.lists depth).leave depth before = .ok shelf ∧
      store'.heard mine <+: (shelf.calls depth how).filter mine := by
  obtain ⟨shelf₁, store₁, first, left⟩ := leave_append left
  obtain ⟨answer, shelf₂, store₂, acted, last⟩ := leave_cons left
  obtain ⟨t₁, M₁, rfl, leaves₁, fits₁, muted₁, ⟨quiet₁, same⟩, lists⟩ := leave_keeps (K := M)
    (I := fun store₁ => store₁.Quiet mine (fun _ => True) ∧ store₁.heard mine = store.heard mine)
    (fun store₁ M store₂ N ready _ kept develops => by
      obtain ⟨quiet', heard⟩ := develops.quiet ready kept.1
      exact ⟨quiet', heard.trans kept.2⟩)
    ready fits muted (fun step inside => silent step (List.mem_append_left _ inside))
    (fun _ _ => rfl) le_rfl ⟨quiet, rfl⟩ first
  obtain ⟨x, s, made, came, rfl⟩ := act_make acted
  have overheard := overheard_make leaves₁.ready fits₁ muted₁ quiet₁ (same.trans unheard) made came
  obtain ⟨t₂, M₂, same₂, leaves₂, fits₂, -⟩ := leaves_act leaves₁.ready fits₁ acted
  have machines : t₁.machines = t₂.machines := congrArg Shelf.machines same₂
  have muted₂ : Muted mine loud t₂.machines := machines ▸ muted₁
  rw [same₂] at last
  obtain ⟨t₃, M₃, -, -, -, -, overheard', -⟩ := leave_keeps (K := M₁)
    (I := Overheard mine M₁ store₁.spines.size fun depth => (t₁.lists depth).calls depth how)
    (fun store M store' N ready agree kept develops => kept.develops ready agree develops)
    leaves₂.ready fits₂ muted₂ (fun step inside => silent step (List.mem_append_right _ inside))
    leaves₂.agree leaves₂.spines overheard last
  filter_upwards [lists, overheard'.heard] with depth lists heard
  exact ⟨_, lists, heard⟩

end Twin

end Leave

/-- In every run each rest is computed once at most, and once it is computed each look behind its node
finds the same sequence and computes nothing. So what one maker calls, beside others that take no such
notes, are the calls on the elements of its source from the first on, each made once and in order,
whichever of the sequences are asked for and however often. -/
theorem run_by_need {rounds : Nat} {steps : List (Step ω ν)} {entries : List (Entry ω (Answer ν))}
    (ran : run rounds steps = .ok entries) :
    ∃ shelf store, Shelf.empty.leave rounds .empty steps = .ok (shelf, store) ∧
      store.notes.toList = entries.flatMap Entry.notes ∧
      store.runs.toList.Nodup ∧
      (∀ node ∈ store.runs, ∃ q, ∀ later shelf' store',
        Shelf.empty.leave rounds .empty (steps ++ later) = .ok (shelf', store') →
          ∀ fuel, Store.rest (fuel + 1) node store' = some (q, store')) ∧
      ∀ (mine : ω → Bool) (loud : String → Prop) before name how after,
        steps = before ++ .make name how :: after →
        (∀ step ∈ before ++ after, step.Silent mine loud) →
        ∀ᶠ depth in atTop, ∃ lists, ListShelf.leave depth ⟨[], []⟩ before = .ok lists ∧
          (entries.flatMap Entry.notes).filter mine <+: (lists.calls depth how).filter mine := by
  have ready : (Store.empty : Store ω ν).Ready fun _ => none := Store.ready_empty
  have fits : (⟨[], []⟩ : Twin ω ν).Fits .empty fun _ => none := fun _ _ _ there => by cases there
  obtain ⟨shelf, store, left, notes⟩ := leave_of_runSteps ready fits ran
  obtain ⟨t, M, rfl, leaves, fits', once, -⟩ := Twin.once_of_leave ready fits Store.once_empty left
  refine ⟨t.shelf, store, left, notes, once.nodup, ?_, ?_⟩
  · intro node inside
    obtain ⟨q, stays⟩ := Twin.rest_of_leave leaves.ready fits' once inside
    refine ⟨q, fun later shelf' store' left' => ?_⟩
    obtain ⟨shelf₁, store₁, first, second⟩ := leave_append left'
    cases first.symm.trans left
    exact stays rounds later shelf' store' second
  · rintro mine loud before name how after rfl silent
    have heard : store.heard mine = (entries.flatMap Entry.notes).filter mine := by
      rw [Store.heard, notes]
      rfl
    rw [← heard]
    exact Twin.heard_of_leave ready fits (fun _ _ found => by cases found)
      (fun id spine _ present => by cases present) rfl silent left

/-- The odd ones of the numbers, with a note of each number tested, asked for through two copies. -/
def oddNumbers : List (Step Nat Nat) := [
  .make "numbers" (.unfold 0 fun n => pure (some (n, n + 1))),
  .make "odd" (.derive "numbers" (.filter fun n => ⟨[n], n % 2 == 1⟩)),
  .make "copy" (.copy "odd"),
  .ask (.iterTake "copy" 2),
  .ask (.iterTake "odd" 2),
  .ask (.splitFirst "copy")]

theorem oddNumbers_by_need :
    run 20 oddNumbers = .ok [⟨.stored, []⟩, ⟨.stored, [0, 1]⟩, ⟨.stored, []⟩,
      ⟨.items [1, 3], [2, 3, 4, 5]⟩, ⟨.items [1, 3], []⟩, ⟨.split (some (1, false)), []⟩] ∧
    ∀ᶠ depth in atTop, ∃ lists, ListShelf.leave depth ⟨[], []⟩ (oddNumbers.take 1) = .ok lists ∧
      [0, 1, 2, 3, 4, 5] <+: (lists.calls depth (.derive "numbers"
        (.filter fun n => ⟨[n], n % 2 == 1⟩))).filter fun _ => true := by
  have ran : run 20 oddNumbers = .ok [⟨.stored, []⟩, ⟨.stored, [0, 1]⟩, ⟨.stored, []⟩,
      ⟨.items [1, 3], [2, 3, 4, 5]⟩, ⟨.items [1, 3], []⟩, ⟨.split (some (1, false)), []⟩] := by
    decide +kernel
  obtain ⟨shelf, store, -, -, -, -, calls⟩ := run_by_need ran
  refine ⟨ran, ?_⟩
  apply calls (fun _ => true) (fun _ => False) _ "odd" _ (oddNumbers.drop 2) rfl
  simp [oddNumbers, Step.Silent, Make.Silent, Query.Silent, Noted.Silent]

end DemandLex.Program
