import DemandLex.Proofs.Sequence.Consumer
import DemandLex.Proofs.Sequence.ListFunctions
import DemandLex.Proofs.StepFunction.Tree
import DemandLex.Proofs.StepFunction.Walk

/-! Lazy step functions do what step functions with their breakpoints at hand do. -/

namespace DemandLex

namespace Producer

variable {ω ν E T U R : Type} {M : Meaning ν} {equal : R → R → Noted ω Bool}

/-- The step that leaves out a breakpoint whose value is equal to the last value kept. -/
def keeping (equal : R → R → Noted ω Bool) (kept : R) (b : Breakpoint E R) :
    Noted ω (R × Option (Breakpoint E R)) := do
  if ← equal kept b.value then pure (kept, none) else pure (b.value, some b)

theorem scanned_keeping {kept : R} {bs : List (Breakpoint E R)} :
    scanned (keeping equal) kept bs = StepFunction.minimise (silent equal) kept bs := by
  induction bs generalizing kept with
  | nil => rfl
  | cons b later ih =>
    cases absorbed : silent equal kept b.value with
    | true =>
      have step : (keeping equal kept b).value = (kept, none) := by
        rw [keeping, Noted.value_bind]
        exact congrArg Noted.value (if_pos absorbed)
      rw [scanned_none step, ih, StepFunction.minimise, if_pos absorbed]
    | false =>
      have step : (keeping equal kept b).value = (b.value, some b) := by
        rw [keeping, Noted.value_bind]
        exact congrArg Noted.value (if_neg (by rw [Bool.not_eq_true]; exact absorbed))
      rw [scanned_some step, ih, StepFunction.minimise, if_neg (by simp [absorbed])]

theorem gives_minimise {p : Producer ω ν (Breakpoint E R)} {first : R} {bs : List (Breakpoint E R)}
    (gives : Gives M p.step p.state bs) :
    Gives M (p.minimise equal first).step (p.minimise equal first).state
      (StepFunction.minimise (silent equal) first bs) := by
  rw [← scanned_keeping]
  exact gives_scanFilter gives

theorem starts_merged {A B : Type} {p : Producer ω ν (Breakpoint E A)}
    {q : Producer ω ν (Breakpoint E B)} {compare : E → E → Ordering} {reduce : A → B → Noted ω R}
    {a : A} {b : B} {first : R} {zs : List (Breakpoint E R)}
    {last : ((p.overlay compare reduce a b q).minimise equal first).State}
    (started : Starts M ((p.overlay compare reduce a b q).minimise equal first).step
      ((p.overlay compare reduce a b q).minimise equal first).state zs last) :
    ∃ xs ys, (∃ last, Starts M p.step p.state xs last) ∧
      (∃ last, Starts M q.step q.state ys last) ∧
      zs = StepFunction.minimise (silent equal) first
        (StepFunction.overlay compare (silent reduce) a b xs ys) := by
  obtain ⟨values, begun, rfl⟩ := Starts.of_scanFilter started
  obtain ⟨xs, ys, left, right, rfl⟩ := starts_walking begun
  exact ⟨xs, ys, left.starts, right.starts, scanned_keeping⟩

end Producer

namespace Sequence.Lists

variable {ω ν : Type} {s : Sequence ν} {values : List ν} {store : Store ω ν} {M : Meaning ν}

theorem grounded (lists : s.Lists values store M) :
    Producer.Grounded store.spines.size (Producer.ofSequence (ω := ω) s).step store.size
      (Producer.ofSequence (ω := ω) s).state :=
  Producer.grounded_reading lists.has

theorem gives (lists : s.Lists values store M) :
    Producer.Gives M (Producer.ofSequence (ω := ω) s).step (Producer.ofSequence (ω := ω) s).state
      values :=
  Producer.gives_reading lists.holds

end Sequence.Lists

namespace StepStream

variable {ω E T U : Type} {s a b : StepStream E T} {f g : StepFunction E T}
  {store : Store ω (Breakpoint E T)} {M : Meaning (Breakpoint E T)} {compare : E → E → Ordering}
  {equal : T → T → Noted ω Bool}

structure Shows (s : StepStream E T) (f : StepFunction E T) (store : Store ω (Breakpoint E T))
    (M : Meaning (Breakpoint E T)) : Prop where
  first : s.first = f.first
  rest : s.rest.Lists f.breakpoints store M

theorem Shows.later {store' : Store ω (Breakpoint E T)} {M' : Meaning (Breakpoint E T)}
    (shows : s.Shows f store M) (ready : store.Ready M) (leaves : store.Leaves M store' M') :
    s.Shows f store' M' :=
  ⟨shows.first, shows.rest.later ready leaves⟩

theorem shows_constant {value : T} :
    (constant value : StepStream E T).Shows (.constant value) store M :=
  ⟨rfl, Sequence.within_none, .nil⟩

theorem returns_share {source : Producer ω (Breakpoint E T) (Breakpoint E T)}
    (ready : store.Ready M)
    (grounded : Producer.Grounded store.spines.size source.step store.size source.state)
    (gives : Producer.Gives M source.step source.state f.breakpoints) :
    (do
      let rest ← source.share
      pure (⟨f.first, rest⟩ : StepStream E T)).Returns store M fun s store' M' =>
        s.Shows f store' M' := by
  apply (Sequence.returns_lists ready grounded gives).bind
  intro rest store' M' leaves lists
  exact Lazy.returns_pure leaves.ready ⟨rfl, lists⟩

theorem returns_ofStepFunction (ready : store.Ready M) :
    (ofStepFunction f).Returns store M fun s store' M' => s.Shows f store' M' :=
  returns_share ready (Producer.grounded_of_alone Producer.alone_unfold)
    (Producer.gives_ofList f.breakpoints)

def merging (compare : E → E → Ordering) (equal : T → T → Noted ω Bool)
    (reduce : T → U → Noted ω T) (a : StepStream E T) (first : U)
    (q : Producer ω (Breakpoint E T) (Breakpoint E U)) :
    Producer ω (Breakpoint E T) (Breakpoint E T) :=
  ((Producer.ofSequence a.rest).overlay compare reduce a.first first q).minimise equal
    (silent reduce a.first first)

section Merging
variable {reduce : T → U → Noted ω T} {first : U}
  {q : Producer ω (Breakpoint E T) (Breakpoint E U)}

theorem grounded_merging (has : store.Has a.rest)
    (grounded : Producer.Grounded store.spines.size q.step store.size q.state) :
    Producer.Grounded store.spines.size (merging compare equal reduce a first q).step store.size
      (merging compare equal reduce a first q).state := by
  refine Producer.grounded_scanFilter (Producer.grounded_walking ?_ grounded)
  exact Producer.grounded_reading has

theorem gives_merging {bs : List (Breakpoint E T)} {cs : List (Breakpoint E U)}
    (left : M.Holds a.rest bs) (right : Producer.Gives M q.step q.state cs) :
    Producer.Gives M (merging compare equal reduce a first q).step
      (merging compare equal reduce a first q).state
      (StepFunction.minimise (silent equal) (silent reduce a.first first)
        (StepFunction.overlay compare (silent reduce) a.first first bs cs)) := by
  refine Producer.gives_minimise (Producer.gives_walking ?_ ?_)
  · exact Side.gives_pending.mpr (Producer.gives_reading left)
  · exact Side.gives_pending.mpr right

theorem returns_merge {h : StepFunction E U} (ready : store.Ready M) (left : a.Shows f store M)
    (grounded : Producer.Grounded store.spines.size q.step store.size q.state)
    (right : Producer.Gives M q.step q.state h.breakpoints) :
    (merge compare equal reduce a h.first q).Returns store M fun s store' M' =>
      s.Shows (f.merge ⟨compare, silent equal⟩ (silent reduce) h) store' M' := by
  obtain ⟨first, rest⟩ := a
  cases left.first
  apply Lazy.returns_noted ready
  exact returns_share (f := f.merge ⟨compare, silent equal⟩ (silent reduce) h)
    (Lazy.leaves_log _ ready).ready (grounded_merging left.rest.has grounded)
    (gives_merging left.rest.holds right)

/-- A merge that comes back has made a stream whose first breakpoints come from the first breakpoints
of the two streams, whether these end or not. -/
theorem begins_merge {fuel : Nat} {store' : Store ω (Breakpoint E T)} (ready : store.Ready M)
    (has : store.Has a.rest)
    (grounded : Producer.Grounded store.spines.size q.step store.size q.state)
    (result : merge compare equal reduce a first q fuel store = some (s, store')) :
    ∃ M', store.Leaves M store' M' ∧ store'.Has s.rest ∧ s.first = silent reduce a.first first ∧
      ∀ zs, M'.Begins s.rest zs → ∃ xs ys, M.Begins a.rest xs ∧
        (∃ last, Producer.Starts M q.step q.state ys last) ∧
        zs = StepFunction.minimise (silent equal) s.first
          (StepFunction.overlay compare (silent reduce) a.first first xs ys) := by
  have noted := Lazy.leaves_log (reduce a.first first).notes ready
  obtain ⟨value, store₁, noted', shares⟩ := Lazy.bind_eq_some.mp result
  cases noted'
  obtain ⟨rest, store₂, made, same⟩ := Lazy.bind_eq_some.mp shares
  cases same
  have shared := Producer.shared_of_eq_some noted.ready
    (Producer.shareable_of_grounded (grounded_merging has grounded)) made
  refine ⟨_, noted.trans shared.leaves, shared.has, rfl, ?_⟩
  intro zs begins
  obtain ⟨last, started⟩ := shared.begins zs rfl begins
  obtain ⟨xs, ys, ⟨last', left⟩, right, same⟩ := Producer.starts_merged started
  exact ⟨xs, ys, Producer.begins_of_starts_reading left, right, same⟩

theorem returns_mergeWith {reduce : T → T → Noted ω T} (ready : store.Ready M)
    (left : a.Shows f store M) (right : b.Shows g store M) :
    (mergeWith compare equal reduce a b).Returns store M fun s store' M' =>
      s.Shows (f.merge ⟨compare, silent equal⟩ (silent reduce) g) store' M' := by
  rw [mergeWith, right.first]
  exact returns_merge ready left right.rest.grounded right.rest.gives

theorem returns_add {interval : Interval E T} (ready : store.Ready M) (shows : s.Shows f store M) :
    (s.add compare equal interval).Returns store M fun s store' M' =>
      s.Shows (f.add ⟨compare, silent equal⟩ interval) store' M' := by
  rw [add, StepFunction.add]
  cases order : compare interval.min interval.max with
  | lt =>
    simp only [order]
    exact returns_merge (h := StepFunction.patch interval)
      (q := .ofList (StepFunction.patch interval).breakpoints) ready shows
      (Producer.grounded_of_alone Producer.alone_unfold) (Producer.gives_ofList _)
  | eq | gt =>
    simp only [order]
    exact Lazy.returns_pure ready shows

theorem returns_map {change : T → Noted ω T} (ready : store.Ready M) (shows : s.Shows f store M) :
    (s.map equal change).Returns store M fun s store' M' =>
      s.Shows (f.map (silent equal) fun value => (change value).value) store' M' := by
  obtain ⟨first, rest⟩ := s
  cases shows.first
  apply Lazy.returns_noted ready
  refine returns_share (f := f.map (silent equal) fun value => (change value).value)
    (Lazy.leaves_log _ ready).ready ?_ ?_
  · exact Producer.grounded_scanFilter (Producer.grounded_scanFilter shows.rest.grounded)
  · exact Producer.gives_minimise (Producer.gives_map shows.rest.gives)

end Merging

section Consuming

theorem returns_get {key : E} (ready : store.Ready M) (shows : s.Shows f store M) :
    (s.get compare key).Returns store M fun value _ _ => value = f.get compare key := by
  apply (Sequence.returns_iterateWhile ready shows.rest).mono
  intro value store' M' leaves same
  subst same
  rw [shows.first, StepFunction.get]
  generalize f.breakpoints = bs
  generalize f.first = first
  induction bs generalizing first with
  | nil => rfl
  | cons b later ih =>
    rw [Sequence.visited, StepFunction.valueFrom]
    cases compare b.edge key with
    | gt => rfl
    | lt | eq => exact ih b.value

theorem returns_toStepFunction (ready : store.Ready M) (shows : s.Shows f store M) :
    s.toStepFunction.Returns store M fun g _ _ => g = f := by
  apply (Sequence.returns_toList ready shows.rest).bind
  intro bs store' M' leaves same
  subst same
  exact Lazy.returns_pure leaves.ready (by rw [shows.first])

theorem returns_buildLimited {first : T} {rest : Sequence (Breakpoint E T)}
    {bs : List (Breakpoint E T)} (limit : Nat) (ready : store.Ready M)
    (lists : rest.Lists bs store M) :
    (LookupTree.buildLimited Sequence.splitFirst first rest limit :
      Lazy ω (Breakpoint E T) _).Returns store M fun r store' M' =>
        ∃ remaining, LookupTree.buildLimited LookupTree.splitList first bs limit =
          pure (r.1, remaining) ∧ r.2.Lists remaining store' M' := by
  induction limit generalizing first rest bs store M with
  | zero => exact Lazy.returns_pure ready ⟨bs, rfl, lists⟩
  | succ limit ih =>
    apply (ih ready lists).bind
    intro result store M leaves found
    obtain ⟨left, rest⟩ := result
    obtain ⟨remaining, built, lists⟩ := found
    apply (Sequence.returns_splitFirst leaves.ready lists).bind
    intro split store' M' leaves' found
    cases remaining with
    | nil =>
      cases found
      refine Lazy.returns_pure leaves'.ready ⟨[], ?_, lists.later leaves.ready leaves'⟩
      rw [LookupTree.buildLimited, built]
      rfl
    | cons b tail =>
      obtain ⟨t, rfl, lists'⟩ := found
      apply (ih leaves'.ready lists').bind
      intro result store M leaves found
      obtain ⟨right, rest'⟩ := result
      obtain ⟨remaining, built', lists''⟩ := found
      refine Lazy.returns_pure leaves.ready ⟨remaining, ?_, lists''⟩
      simp only [LookupTree.buildLimited, built, pure_bind, LookupTree.splitList_cons, built']

/-- The tree grown while the breakpoints are computed is the one grown from all of them. -/
theorem returns_sequentialTree (ready : store.Ready M) (shows : s.Shows f store M) :
    s.sequentialTree.Returns store M fun t _ _ => t = LookupTree.sequential f := by
  refine Lazy.returns_iterate (I := fun rounds state store M => ∃ left more,
    rounds = left.length ∧ left.length < more ∧ state.2.1.Lists left store M ∧
      LookupTree.growFrom more (state.1, left, state.2.2) = LookupTree.sequential f) ?_ ready
    ⟨f.breakpoints, f.breakpoints.length + 1, rfl, Nat.lt_succ_self _, shows.rest,
      by rw [shows.first, LookupTree.sequential]⟩
  intro rounds state store M ready found
  obtain ⟨tree, rest, level⟩ := state
  obtain ⟨left, more, rfl, enough, lists, same⟩ := found
  obtain ⟨more, rfl⟩ := Nat.exists_eq_succ_of_ne_zero (Nat.ne_zero_of_lt enough)
  apply (Sequence.returns_splitFirst ready lists).bind
  intro split store' M' leaves found
  cases left with
  | nil =>
    cases found
    exact Lazy.returns_pure leaves.ready same
  | cons b tail =>
    obtain ⟨t, rfl, lists'⟩ := found
    apply (returns_buildLimited level leaves.ready lists').bind
    intro result store M leaves' found
    obtain ⟨right, rest'⟩ := result
    obtain ⟨remaining, built, lists''⟩ := found
    have shorter := LookupTree.length_of_buildLimited built
    refine Lazy.returns_pure leaves'.ready ⟨remaining.length, ?_, remaining, more, rfl, ?_, lists'', ?_⟩
    · exact Nat.lt_succ_of_le shorter
    · simp only [List.length_cons] at enough
      omega
    · rw [← same, LookupTree.growFrom_cons built]

end Consuming

end StepStream

end DemandLex
