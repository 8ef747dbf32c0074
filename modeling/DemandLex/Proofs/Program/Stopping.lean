import DemandLex.Program.Sequences
import DemandLex.Program.StepFunctions
import DemandLex.Proofs.Sequence.Pulling

/-! How far consumers have read where they stop before the end. Dropping and comparing stop at the
element that decides. An iterator finds the rest behind an element before it hands the element out,
and so does the lookup that is written with one. -/

namespace DemandLex

open Effect

namespace StepStream

variable {ω E T : Type} {compare : E → E → Ordering} {key : E} {f : StepStream E T}
  {store : Store ω (Breakpoint E T)} {M : Meaning (Breakpoint E T)}
  {cells : List (Cell (Breakpoint E T))} {cell : Cell (Breakpoint E T)}

def passing (compare : E → E → Ordering) (key : E) (value : T) (b : Breakpoint E T) : T × Bool :=
  match compare b.edge key with
  | .gt => (value, false)
  | _ => (b.value, true)

theorem passing_passed {value : T} {b : Breakpoint E T} (passed : compare b.edge key ≠ .gt) :
    passing compare key value b = (b.value, true) := by
  unfold passing
  split
  · contradiction
  · rfl

theorem visits_passing {bs : List (Breakpoint E T)} (first : T)
    (passed : ∀ b ∈ bs, compare b.edge key ≠ .gt) :
    Sequence.Visits (passing compare key) first bs
      (StepFunction.valueFrom compare key first bs) := by
  induction bs generalizing first with
  | nil => exact .nil
  | cons b later ih =>
    have here := passed b List.mem_cons_self
    have value : StepFunction.valueFrom compare key first (b :: later) =
        StepFunction.valueFrom compare key b.value later := by
      rw [StepFunction.valueFrom]
      split
      · contradiction
      · rfl
    rw [value]
    exact .cons (passing_passed here) (ih b.value fun c inside =>
      passed c (List.mem_cons_of_mem _ inside))

theorem visits_cells (passed : ∀ passed ∈ cells, compare passed.value.edge key ≠ .gt) :
    Sequence.Visits (passing compare key) f.first (cells.map Cell.value)
      (StepFunction.valueFrom compare key f.first (cells.map Cell.value)) := by
  apply visits_passing
  intro b inside
  obtain ⟨cell, among, rfl⟩ := List.mem_map.mp inside
  exact passed cell among

section Get
variable (ready : store.Ready M) (has : store.Has f.rest) (walks : M.Walks f.rest cells (some cell))
  (passed : ∀ passed ∈ cells, compare passed.value.edge key ≠ .gt)
include ready has walks passed

theorem does_get {q : Sequence (Breakpoint E T)} (greater : compare cell.value.edge key = .gt)
    (follows : M.after cell.node = some q) :
    (f.get compare key).Does store M (looking (cells ++ [cell]))
      (StepFunction.valueFrom compare key f.first (cells.map Cell.value)) := by
  have unbounded (count : Nat) (none_left : none = some count) : cells.length < count := by
    cases none_left
  have stops (value : T) : passing compare key value cell.value = (value, false) := by
    rw [passing, greater]
  exact Sequence.does_iterateWhile_last ready has walks (visits_cells passed) unbounded (stops _)
    follows

theorem hangs_get (stuck : M.after cell.node = none) : (f.get compare key).Hangs store :=
  have unbounded (count : Nat) (none_left : none = some count) : cells.length < count := by
    cases none_left
  Sequence.hangs_iterateWhile ready has walks (visits_cells passed) unbounded stuck

end Get

end StepStream

/-- Goes on for ever behind its only element, without an end. -/
def Producer.stuck {ω ν : Type} (value : ν) : Producer ω ν ν where
  State := Bool
  state := true
  step first := pure (if first then .yield value false else .skip false)

theorem Producer.reaches_stuck {ω ν : Type} {M : Meaning ν} {value : ν} :
    Reaches M (stuck (ω := ω) value).step true (some (value, false)) := .yield rfl

theorem Producer.not_reaches_stuck {ω ν : Type} {M : Meaning ν} {value : ν}
    {r : Option (ν × Bool)} : ¬Reaches M (stuck (ω := ω) value).step false r := by
  intro reached
  generalize same : false = s at reached
  induction reached with
  | yield move => subst same; cases move
  | done move => subst same; cases move
  | skip move later ih => subst same; cases move; exact ih rfl
  | force move => subst same; cases move

theorem Store.exists_stuck {ω ν : Type} (value : ν) :
    ∃ (cell : Cell ν) (store : Store ω ν) (M : Meaning ν), store.Ready M ∧ store.Has (some cell) ∧
      cell.value = value ∧ M.after cell.node = none := by
  have alone (s : Bool) (node : Node) (resume : Sequence ν → Bool) :
      ((Producer.stuck (ω := ω) value).step s).value ≠ .force node resume := by
    cases s <;> rintro ⟨⟩
  have shareable : Producer.Shareable (.empty : Store ω ν) (Producer.stuck value) (pure none) :=
    Producer.shareable_of_grounded (Producer.grounded_of_alone alone)
  have made : ∃ store', (Producer.stuck (ω := ω) value).share 1 .empty =
      some (some ⟨value, 0, 0⟩, store') := ⟨_, rfl⟩
  obtain ⟨store', made⟩ := made
  have shared := Producer.shared_of_eq_some Store.ready_empty shareable made
  refine ⟨⟨value, 0, 0⟩, store', _, shared.leaves.ready, shared.has, rfl, ?_⟩
  have continues := (Producer.extending_pushed Store.ready_empty shareable).continues
  have behind := continues.behind Producer.reaches_stuck
  refine Option.eq_none_iff_forall_not_mem.mpr fun q follows => ?_
  obtain ⟨r, reached, -⟩ := behind.here.mp follows
  exact Producer.not_reaches_stuck reached

/-- A consumer that stops at an element has looked behind all elements before it. Dropping and
comparing look no further. An iterator has looked behind the last element that it hands out, and so
has a lookup behind the first edge that is after the key, whose value it leaves out. Where that look
does not come back, neither do they. -/
theorem consumers_stop {ω ν E T : Type} {store : Store ω ν} {M : Meaning ν} {s : Sequence ν}
    {steps : Store ω (Breakpoint E T)} {N : Meaning (Breakpoint E T)} {f : StepStream E T}
    (ready : store.Ready M) (has : store.Has s) (ready' : steps.Ready N) (has' : steps.Has f.rest) :
    (∀ (drop : ν → Noted ω Bool) cells cell, M.Walks s cells (some cell) →
      (∀ passed ∈ cells, (drop passed.value).value = true) → (drop cell.value).value = false →
        (s.dropWhile drop).Does store M
          (Sequence.testing drop cells ++ noting (drop cell.value).notes) (some cell)) ∧
    (∀ (same : ν → ν → Bool) t xs ys s' t', store.Has t → M.Walks s xs s' → M.Walks t ys t' →
      List.Forall₂ (fun a b => Sequence.verdict same (some a) (some b) = none) xs ys →
      Sequence.verdict same s' t' = some false →
        (s.equal same t).Does store M (Sequence.lookingBoth xs ys) false) ∧
    (∀ cells cell, M.Walks s cells (some cell) →
      (∀ q, M.after cell.node = some q →
        (s.iterTake (cells.length + 1)).Does store M (looking (cells ++ [cell]))
          ((cells ++ [cell]).map Cell.value)) ∧
      (M.after cell.node = none →
        (s.iterTake (cells.length + 1) : Lazy ω ν (List ν)).Hangs store)) ∧
    ∀ compare key cells cell, N.Walks f.rest cells (some cell) →
      (∀ passed ∈ cells, compare passed.value.edge key ≠ .gt) →
      compare cell.value.edge key = .gt →
        (∀ q, N.after cell.node = some q →
          (f.get compare key).Does steps N (looking (cells ++ [cell]))
            (StepFunction.valueFrom compare key f.first (cells.map Cell.value))) ∧
        (N.after cell.node = none → (f.get compare key).Hangs steps) := by
  refine ⟨?_, ?_, ?_, ?_⟩
  · intro drop cells cell walks dropped kept
    exact Sequence.does_dropWhile ready has walks dropped kept
  · intro same t xs ys s' t' has' left right level stop
    exact Sequence.does_equal ready has has' left right level stop
  · intro cells cell walks
    constructor
    · intro q follows
      refine Sequence.does_iterTake ready has (walks.concat follows) (Or.inl ?_)
      rw [List.length_append, List.length_singleton]
    · intro stuck
      exact Sequence.hangs_iterTake ready has walks (Nat.lt_succ_self _) stuck
  · intro compare key cells cell walks passed greater
    constructor
    · intro q follows
      exact StepStream.does_get ready' has' walks passed greater follows
    · intro stuck
      exact StepStream.hangs_get ready' has' walks passed stuck

/-- Of 1, 2 and 3, the numbers below 2 are dropped with one look, and the first is compared with
nothing else and handed out by an iterator with none and with one. A lookup before the first edge
does not come back where nothing comes behind that edge. -/
theorem consumers_stop_two :
    ∃ (s : Sequence Nat) (store : Store Nat Nat) (M : Meaning Nat) (first second third : Cell Nat)
      (f : StepStream Nat Nat) (steps : Store Nat (Breakpoint Nat Nat)),
      M.Walks s [first, second, third] none ∧ [first, second, third].map Cell.value = [1, 2, 3] ∧
      (s.dropWhile fun n => ⟨[n], n < 2⟩).Does store M [.note 1, .look first.node, .note 2]
        (some second) ∧
      (s.equal (· == ·) none).Does store M [] false ∧
      (s.iterTake 1).Does store M [.look first.node] [1] ∧
      f.rest.first? = some ⟨5, 1⟩ ∧ (f.get compare 3).Hangs steps := by
  obtain ⟨s, store, M, cells, -, ready, has, walks, values⟩ :=
    Store.exists_shared (ω := Nat) [1, 2, 3]
  obtain ⟨cell, steps, N, ready', has', edge, stuck⟩ :=
    Store.exists_stuck (ω := Nat) (⟨5, 1⟩ : Breakpoint Nat Nat)
  obtain ⟨⟨_, first⟩, ⟨_, second⟩, ⟨_, third⟩, rfl⟩ := List.length_eq_three.mp
    (by rw [← List.length_map (f := Cell.value), values]; rfl)
  cases values
  have one : M.Walks s [] (some ⟨1, first⟩) := walks.until
  have two : M.Walks s [⟨1, first⟩] (some ⟨2, second⟩) := walks.until
  obtain ⟨q, follows⟩ : ∃ q, M.after first = some q := by
    cases walks with
    | cons follows => exact ⟨_, follows⟩
  obtain ⟨drops, compares, iterates, looksUp⟩ :=
    consumers_stop (f := ⟨0, some cell⟩) ready has ready' has'
  refine ⟨s, store, M, ⟨1, first⟩, ⟨2, second⟩, ⟨3, third⟩, ⟨0, some cell⟩, steps, walks, rfl, ?_, ?_,
    ?_, ?_, ?_⟩
  · exact drops (fun n => ⟨[n], n < 2⟩) _ _ two (by simp) (by simp)
  · cases one
    exact compares (· == ·) none [] [] _ _ Sequence.within_none .nil .nil .nil rfl
  · exact (iterates _ _ one).1 q follows
  · simp [Sequence.first?, edge]
  · exact (looksUp compare 3 [] cell .nil (by simp) (by rw [edge]; rfl)).2 stuck

/-- The first of the numbers is handed out when the second has been computed, and a key below all
edges is looked up when the second edge has been. Each number that is computed is noted. -/
theorem iterator_reads_ahead :
    Program.run 20 [.make "numbers" (.unfold 0 fun n => ⟨[n], some (n, n + 1)⟩),
      .ask (.iterTake "numbers" 1)] = .ok [⟨.stored, [0]⟩, ⟨.items [0], [1]⟩] ∧
    Program.runStepFunctions 20 [.make "fives" (.unfold 7 0 fun n =>
      ⟨[n], some (⟨5 * n + 5, n⟩, n + 1)⟩), .ask (.get compare "fives" [3])] =
        .ok [⟨.stored, [0]⟩, ⟨.values [7], [1]⟩] := by
  constructor <;> rfl

end DemandLex
