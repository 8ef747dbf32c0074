import DemandLex.Proofs.Sequence.Approximation

/-! What the operators on producers give, from what becomes known of their sources. An operator that
makes one move for each move of its source knows, after any number of moves, just what the list
function gives on what is known of the source; the others come to the same in the end. -/

namespace DemandLex.Producer

variable {ω ν σ τ α β : Type} {M : Meaning ν}

section Sources

theorem given_unfold {step : σ → Noted ω (Option (α × σ))} {n : Nat} {seed : σ} :
    given M (play step) n seed = Listing.unfold (fun seed => (step seed).value) n seed := by
  induction n generalizing seed with
  | zero => rfl
  | succ n ih =>
    cases grown : (step seed).value with
    | none =>
      have move : (play (ν := ν) step seed).value = .done := by simp [play, grown]
      rw [given_done move, Listing.unfold, grown]
    | some found =>
      obtain ⟨value, next⟩ := found
      have move : (play (ν := ν) step seed).value = .yield value next := by simp [play, grown]
      rw [given_yield move, ih, Listing.unfold, grown]

theorem given_reading {n : Nat} {s : Sequence ν} :
    given M (reading (ω := ω)) (2 * n) (.here s) = M.shown n s := by
  induction n generalizing s with
  | zero => rfl
  | succ n ih =>
    cases s with
    | none => exact given_done rfl
    | some cell =>
      have behind : given M (reading (ω := ω)) (2 * n + 1) (.after cell.node) =
          (M.after cell.node).elim .unknown (M.shown n) := by
        cases follows : M.after cell.node with
        | none => exact given_stuck rfl follows
        | some q => exact (given_force rfl follows).trans ih
      exact (given_yield rfl).trans (congrArg _ behind)

theorem sameLimit_reading {s : Sequence ν} :
    Listing.SameLimit (fun n => given M (reading (ω := ω)) n (.here s)) fun n => M.shown n s where
  le n := by
    apply Listing.eventually_le Meaning.shown_mono (n := n)
    rw [← given_reading]
    exact given_mono (by omega)
  ge n := by
    apply Listing.eventually_le given_mono (n := 2 * n)
    rw [given_reading]

end Sources

section Moves
variable {step : σ → Noted ω (Move ν σ α)} {ρ : Type} {step' : ρ → Noted ω (Move ν ρ β)}

/-- What an operator with a state of its own does on an element: it passes on an output, or it
absorbs the element, or it ends. -/
inductive Answers (place : τ → σ → ρ) (next : σ) (f : τ → Listing α → Listing β) (carried : τ)
    (value : α) : Move ν ρ β → Prop
  | yield {output : β} (carried' : τ)
      (known : ∀ l, f carried (.cons value l) = .cons output (f carried' l)) :
      Answers place next f carried value (.yield output (place carried' next))
  | skip (carried' : τ) (known : ∀ l, f carried (.cons value l) = f carried' l) :
      Answers place next f carried value (.skip (place carried' next))
  | done (known : ∀ l, f carried (.cons value l) = .whole []) :
      Answers place next f carried value .done

theorem given_of_moves (place : τ → σ → ρ) (f : τ → Listing α → Listing β)
    (unknown : ∀ carried, f carried .unknown = .unknown)
    (nil : ∀ carried, f carried (.whole []) = .whole [])
    (yield : ∀ carried s value next, (step s).value = .yield value next →
      Answers place next f carried value (step' (place carried s)).value)
    (skip : ∀ carried s next, (step s).value = .skip next →
      (step' (place carried s)).value = .skip (place carried next))
    (force : ∀ carried s node resume, (step s).value = .force node resume →
      (step' (place carried s)).value = .force node fun q => place carried (resume q))
    (done : ∀ carried s, (step s).value = .done → (step' (place carried s)).value = .done)
    {n : Nat} (carried : τ) {s : σ} :
    given M step' n (place carried s) = f carried (given M step n s) := by
  induction n generalizing carried s with
  | zero => exact (unknown carried).symm
  | succ n ih =>
    cases move : (step s).value with
    | yield value next =>
      have answers := yield carried s value next move
      rw [given_yield move]
      cases moved : (step' (place carried s)).value with
      | yield output =>
        rw [moved] at answers
        cases answers with
        | yield carried' known => rw [given_yield moved, ih, known]
      | skip =>
        rw [moved] at answers
        cases answers with
        | skip carried' known => rw [given_skip moved, ih, known]
      | done =>
        rw [moved] at answers
        cases answers with
        | done known => rw [given_done moved, known]
      | force =>
        rw [moved] at answers
        cases answers
    | skip next => rw [given_skip move, given_skip (skip carried s next move), ih]
    | force node resume =>
      have moved := force carried s node resume move
      cases follows : M.after node with
      | none => rw [given_stuck move follows, given_stuck moved follows, unknown]
      | some q => rw [given_force move follows, given_force moved follows, ih]
    | done => rw [given_done move, given_done (done carried s move), nil]

end Moves

section ScanFilter
variable {p : Producer ω ν α} {start carried : τ} {step : τ → α → Noted ω (τ × Option β)}
  {s : p.State}

theorem given_scanFilter {n : Nat} :
    given M (p.scanFilter start step).step n (s, carried) =
      (given M p.step n s).through (scanned step carried) := by
  refine given_of_moves (fun carried s => (s, carried))
    (fun carried l => l.through (scanned step carried)) (fun _ => rfl) (fun _ => rfl) ?_
    (fun _ _ _ => scanFilter_skip) (fun _ _ _ _ => scanFilter_force) (fun _ _ => scanFilter_done) carried
  intro carried s value next move
  rcases given : (step carried value).value with ⟨carried', _ | output⟩
  · rw [scanFilter_absorbed move given]
    refine .skip carried' fun l => ?_
    rw [Listing.through, Listing.cons, scanned_none given]
    rfl
  · rw [scanFilter_output move given]
    refine .yield carried' fun l => ?_
    rw [Listing.through, Listing.cons, scanned_some given]
    rfl

theorem scanned_more (step : τ → α → Noted ω (τ × Option β)) (carried : τ)
    (values later : List α) : scanned step carried values <+: scanned step carried (values ++ later) := by
  induction values generalizing carried with
  | nil => exact List.nil_prefix
  | cons value values ih =>
    rw [List.cons_append]
    rcases given : (step carried value).value with ⟨carried', _ | output⟩
    · rw [scanned_none given, scanned_none given]
      exact ih carried'
    · rw [scanned_some given, scanned_some given]
      exact List.cons_prefix_cons.mpr ⟨rfl, ih carried'⟩

variable {d : Nat → Listing α}

theorem sameLimit_scanFilter (limit : Listing.SameLimit (fun n => given M p.step n p.state) d) :
    Listing.SameLimit (fun n => given M (p.scanFilter start step).step n (p.state, start))
      fun n => (d n).through (scanned step start) := by
  simp only [given_scanFilter]
  exact limit.map fun _ _ => Listing.through_le (scanned_more step start)

theorem sameLimit_scanned {f : List α → List β}
    (limit : Listing.SameLimit (fun n => given M p.step n p.state) d)
    (same : ∀ values, scanned step start values = f values) :
    Listing.SameLimit (fun n => given M (p.scanFilter start step).step n (p.state, start))
      fun n => (d n).through f := by
  have same' (l : Listing α) : l.through f = l.through (scanned step start) := by
    rw [Listing.through, Listing.through, same]
  simp only [same']
  exact sameLimit_scanFilter limit

end ScanFilter

section Cut
variable {p : Producer ω ν α} {s : p.State}

theorem given_takeWhile {keep : α → Noted ω Bool} {n : Nat} :
    given M (p.takeWhile keep).step n s =
      (given M p.step n s).takeWhile fun value => (keep value).value := by
  refine given_of_moves (fun (_ : Unit) s => s) (fun _ l => l.takeWhile fun value => (keep value).value)
    (fun _ => rfl) (fun _ => rfl) ?_ ?_ ?_ ?_ ()
  · intro _ s value next move
    cases kept : (keep value).value with
    | true =>
      have moved : ((p.takeWhile keep).step s).value = .yield value next := by
        simp [takeWhile, move, kept]
      rw [moved]
      exact .yield () fun l => Listing.takeWhile_cons_kept kept
    | false =>
      have moved : ((p.takeWhile keep).step s).value = .done := by simp [takeWhile, move, kept]
      rw [moved]
      exact .done fun l => Listing.takeWhile_cons_dropped kept
  · intro _ s next move
    simp [takeWhile, move]
  · intro _ s node resume move
    simp [takeWhile, move]
  · intro _ s move
    simp [takeWhile, move]

section Take
variable {count left : Nat} {next : p.State}

theorem take_yield {value : α} (move : (p.step s).value = .yield value next) :
    ((p.take count).step (left + 1, s)).value = .yield value (left, next) := by
  simp [take, move]

theorem take_skip (move : (p.step s).value = .skip next) :
    ((p.take count).step (left + 1, s)).value = .skip (left + 1, next) := by
  simp [take, move, Move.lift]

theorem take_force {node : Node} {resume : Sequence ν → p.State}
    (move : (p.step s).value = .force node resume) :
    ((p.take count).step (left + 1, s)).value = .force node fun q => (left + 1, resume q) := by
  simp [take, move, Move.lift]

theorem take_done (move : (p.step s).value = .done) :
    ((p.take count).step (left + 1, s)).value = .done := by
  simp [take, move, Move.lift]

theorem take_cases (p : Producer ω ν α) (count left : Nat) (s : p.State) :
    (∃ value next, (p.step s).value = .yield value next ∧
      ((p.take count).step (left + 1, s)).value = .yield value (left, next)) ∨
    (∃ next, (p.step s).value = .skip next ∧
      ((p.take count).step (left + 1, s)).value = .skip (left + 1, next)) ∨
    (∃ node resume, (p.step s).value = .force node resume ∧
      ((p.take count).step (left + 1, s)).value = .force node fun q => (left + 1, resume q)) ∨
    ((p.step s).value = .done ∧ ((p.take count).step (left + 1, s)).value = .done) := by
  cases move : (p.step s).value with
  | yield value next => exact Or.inl ⟨value, next, rfl, take_yield move⟩
  | skip next => exact Or.inr (Or.inl ⟨next, rfl, take_skip move⟩)
  | force node resume => exact Or.inr (Or.inr (Or.inl ⟨node, resume, rfl, take_force move⟩))
  | done => exact Or.inr (Or.inr (Or.inr ⟨rfl, take_done move⟩))

end Take

theorem given_take {count n : Nat} :
    given M (p.take count).step n (count, s) ≤ (given M p.step n s).take count ∧
      (given M p.step n s).take count ≤ given M (p.take count).step (n + 1) (count, s) := by
  suffices ∀ left, given M (p.take count).step n (left, s) ≤ (given M p.step n s).take left ∧
      (given M p.step n s).take left ≤ given M (p.take count).step (n + 1) (left, s) from this count
  have stop {n : Nat} {s : p.State} : given M (p.take count).step (n + 1) (0, s) = .whole [] :=
    given_done rfl
  intro left
  induction n generalizing s left with
  | zero =>
    refine ⟨Listing.unknown_le, ?_⟩
    cases left with
    | zero => exact stop.ge
    | succ left => exact Listing.unknown_le
  | succ n ih =>
    cases left with
    | zero => exact ⟨stop.trans_le Listing.take_zero.ge, Listing.take_zero.trans_le stop.ge⟩
    | succ left =>
      cases move : (p.step s).value with
      | yield value next =>
        have moved : ((p.take count).step (left + 1, s)).value = .yield value (left, next) :=
          take_yield move
        obtain ⟨below, above⟩ := ih left (s := next)
        rw [given_yield move, Listing.take_cons]
        exact ⟨(given_yield moved).trans_le (Listing.cons_le below),
          (Listing.cons_le above).trans_eq (given_yield moved).symm⟩
      | skip next =>
        have moved : ((p.take count).step (left + 1, s)).value = .skip (left + 1, next) :=
          take_skip move
        obtain ⟨below, above⟩ := ih (left + 1) (s := next)
        rw [given_skip move]
        exact ⟨(given_skip moved).trans_le below, above.trans_eq (given_skip moved).symm⟩
      | force node resume =>
        have moved : ((p.take count).step (left + 1, s)).value =
            .force node fun q => (left + 1, resume q) := take_force move
        cases follows : M.after node with
        | none =>
          rw [given_stuck move follows, Listing.take_unknown]
          exact ⟨(given_stuck moved follows).le, Listing.unknown_le⟩
        | some q =>
          obtain ⟨below, above⟩ := ih (left + 1) (s := resume q)
          rw [given_force move follows]
          exact ⟨(given_force moved follows).trans_le below,
            above.trans_eq (given_force moved follows).symm⟩
      | done =>
        have moved : ((p.take count).step (left + 1, s)).value = .done := take_done move
        rw [given_done move]
        exact ⟨(given_done moved).le, (given_done moved).ge⟩

theorem sameLimit_take {count : Nat} :
    Listing.SameLimit (fun n => given M (p.take count).step n (count, s))
      fun n => (given M p.step n s).take count where
  le _ := Listing.eventually_le (fun _ _ later => Listing.take_le (given_mono later)) given_take.1
  ge _ := Listing.eventually_le given_mono given_take.2

end Cut

section Lift

theorem given_lift {step : σ → Noted ω (Move ν σ α)} {step' : τ → Noted ω (Move ν τ α)}
    (place : σ → τ) (lifts : ∀ s, (step' (place s)).value = (step s).value.lift place) {n : Nat}
    {s : σ} : given M step' n (place s) = given M step n s := by
  refine given_of_moves (fun (_ : Unit) => place) (fun _ l => l) (fun _ => rfl) (fun _ => rfl)
    ?_ ?_ ?_ ?_ ()
  · intro _ s value next move
    rw [lifts, move]
    exact .yield () fun _ => rfl
  · intro _ s next move
    rw [lifts, move]
    rfl
  · intro _ s node resume move
    rw [lifts, move]
    rfl
  · intro _ s move
    rw [lifts, move]
    rfl

theorem given_playEither_reading {step : σ → Noted ω (Option (ν × σ))} {n : Nat} {r : Reading ν} :
    given M (playEither step) n (.inl r) = given M (reading (ω := ω)) n r :=
  given_lift Sum.inl fun _ => rfl

theorem given_playEither_seed {step : σ → Noted ω (Option (ν × σ))} {n : Nat} {seed : σ} :
    given M (playEither step) n (.inr seed) =
      Listing.unfold (fun seed => (step seed).value) n seed := by
  rw [← given_unfold (M := M)]
  exact given_lift Sum.inr fun _ => rfl

end Lift

section Append
variable {p q : Producer ω ν α} {s : p.State} {n m : Nat}

theorem append_inl (some_move : (p.step s).value ≠ .done) :
    ((p.append q).step (.inl s)).value = (p.step s).value.lift .inl := by
  cases move : (p.step s).value with
  | done => exact absurd move some_move
  | yield | skip | force => simp [append, move]

theorem append_done (move : (p.step s).value = .done) :
    ((p.append q).step (.inl s)).value = .skip (.inr q.state) := by
  simp [append, move]

theorem append_yield {value : α} {next : p.State} (move : (p.step s).value = .yield value next) :
    ((p.append q).step (.inl s)).value = .yield value (.inl next) := by
  simp [append, move, Move.lift]

theorem append_skip {next : p.State} (move : (p.step s).value = .skip next) :
    ((p.append q).step (.inl s)).value = .skip (.inl next) := by
  simp [append, move, Move.lift]

theorem append_force {node : Node} {resume : Sequence ν → p.State}
    (move : (p.step s).value = .force node resume) :
    ((p.append q).step (.inl s)).value = .force node fun r => .inl (resume r) := by
  simp [append, move, Move.lift]

theorem given_append_inr {t : q.State} :
    given M (p.append q).step n (.inr t) = given M q.step n t :=
  given_lift Sum.inr fun _ => rfl

theorem given_append_le :
    given M (p.append q).step n (.inl s) ≤
      (given M p.step n s).append (given M q.step n q.state) := by
  induction n generalizing s with
  | zero => exact Listing.unknown_le
  | succ n ih =>
    have behind (t : p.State) : given M (p.append q).step n (.inl t) ≤
        (given M p.step n t).append (given M q.step (n + 1) q.state) :=
      ih.trans (Listing.append_le le_rfl given_le_succ)
    cases move : (p.step s).value with
    | yield value next =>
      rw [given_yield move, Listing.append_cons]
      exact (given_yield (append_yield move)).trans_le (Listing.cons_le (behind next))
    | skip next =>
      rw [given_skip move]
      exact (given_skip (append_skip move)).trans_le (behind next)
    | force node resume =>
      have moved : ((p.append q).step (.inl s)).value = .force node fun r => .inl (resume r) :=
        append_force move
      cases follows : M.after node with
      | none => exact (given_stuck moved follows).trans_le Listing.unknown_le
      | some r =>
        rw [given_force move follows]
        exact (given_force moved follows).trans_le (behind (resume r))
    | done =>
      rw [given_done move, Listing.nil_append]
      exact (given_skip (append_done move)).trans_le (given_append_inr.trans_le given_le_succ)

theorem append_le_given_append :
    (given M p.step m s).append (given M q.step n q.state) ≤
      given M (p.append q).step (m + n) (.inl s) := by
  induction m generalizing s with
  | zero => exact Listing.unknown_le
  | succ m ih =>
    rw [Nat.add_right_comm]
    cases move : (p.step s).value with
    | yield value next =>
      rw [given_yield move, Listing.append_cons]
      exact (Listing.cons_le ih).trans_eq (given_yield (append_yield move)).symm
    | skip next =>
      rw [given_skip move]
      exact ih.trans_eq (given_skip (append_skip move)).symm
    | force node resume =>
      have moved : ((p.append q).step (.inl s)).value = .force node fun r => .inl (resume r) :=
        append_force move
      cases follows : M.after node with
      | none =>
        rw [given_stuck move follows]
        exact Listing.unknown_le
      | some r =>
        rw [given_force move follows]
        exact ih.trans_eq (given_force moved follows).symm
    | done =>
      rw [given_done move, Listing.nil_append]
      exact (given_mono (Nat.le_add_left n m)).trans_eq
        ((given_skip (append_done move)).trans given_append_inr).symm

theorem sameLimit_append {c d : Nat → Listing α}
    (first : Listing.SameLimit (fun n => given M p.step n p.state) c)
    (second : Listing.SameLimit (fun n => given M q.step n q.state) d) :
    Listing.SameLimit (fun n => given M (p.append q).step n (.inl p.state))
      fun n => (c n).append (d n) := by
  refine Listing.SameLimit.trans ⟨fun n => ?_, fun n => ?_⟩ (first.append second)
  · exact Listing.eventually_le
      (fun _ _ later => Listing.append_le (given_mono later) (given_mono later)) given_append_le
  · exact Listing.eventually_le given_mono append_le_given_append

end Append

section Flatten
variable {p : Producer ω ν σ} {run : σ → Noted ω (Move ν σ α)} {outer : p.State} {inner : σ}
  {n m : Nat}

section Moves
variable {node : Node}

theorem notes_flatten_outer (run : σ → Noted ω (Move ν σ α)) :
    ((p.flatten run).step (outer, none)).notes = (p.step outer).notes := by
  cases move : (p.step outer).value <;> simp [flatten, move]

theorem notes_flatten_inner (outer : p.State) :
    ((p.flatten run).step (outer, some inner)).notes = (run inner).notes := by
  cases move : (run inner).value <;> simp [flatten, move]

theorem flatten_start {start : σ} {next : p.State} (move : (p.step outer).value = .yield start next) :
    ((p.flatten run).step (outer, none)).value = .skip (next, some start) := by
  simp [flatten, move]

theorem flatten_outer_skip {next : p.State} (move : (p.step outer).value = .skip next) :
    ((p.flatten run).step (outer, none)).value = .skip (next, none) := by
  simp [flatten, move]

theorem flatten_outer_force {resume : Sequence ν → p.State}
    (move : (p.step outer).value = .force node resume) :
    ((p.flatten run).step (outer, none)).value = .force node fun q => (resume q, none) := by
  simp [flatten, move]

theorem flatten_outer_done (move : (p.step outer).value = .done) :
    ((p.flatten run).step (outer, none)).value = .done := by
  simp [flatten, move]

theorem flatten_yield {value : α} {next : σ} (move : (run inner).value = .yield value next) :
    ((p.flatten run).step (outer, some inner)).value = .yield value (outer, some next) := by
  simp [flatten, move, Move.lift]

theorem flatten_inner_skip {next : σ} (move : (run inner).value = .skip next) :
    ((p.flatten run).step (outer, some inner)).value = .skip (outer, some next) := by
  simp [flatten, move, Move.lift]

theorem flatten_inner_force {resume : Sequence ν → σ}
    (move : (run inner).value = .force node resume) :
    ((p.flatten run).step (outer, some inner)).value =
      .force node fun q => (outer, some (resume q)) := by
  simp [flatten, move, Move.lift]

theorem flatten_inner_done (move : (run inner).value = .done) :
    ((p.flatten run).step (outer, some inner)).value = .skip (outer, none) := by
  simp [flatten, move]

end Moves

def runs (M : Meaning ν) (run : σ → Noted ω (Move ν σ α)) (n : Nat) (starts : Listing σ) :
    Listing α :=
  (starts.map (given M run n)).flatten

theorem runs_le {starts starts' : Listing σ} (moves : n ≤ m) (le : starts ≤ starts') :
    runs M run n starts ≤ runs M run m starts' :=
  Listing.flatten_map_le le fun _ _ => given_mono moves

theorem given_flatten_le :
    given M (p.flatten run).step n (outer, none) ≤ runs M run n (given M p.step n outer) ∧
      ∀ inner, given M (p.flatten run).step n (outer, some inner) ≤
        (given M run n inner).append (runs M run n (given M p.step n outer)) := by
  -- Both bounds go together: a run that is done leaves to the outside, and a start leads into a run.
  induction n generalizing outer with
  | zero => exact ⟨Listing.unknown_le, fun _ => Listing.unknown_le⟩
  | succ n ih =>
    constructor
    · cases move : (p.step outer).value with
      | yield start next =>
        rw [given_yield move]
        refine (given_skip (flatten_start move)).trans_le ((ih.2 start).trans ?_)
        exact Listing.append_le given_le_succ (runs_le (Nat.le_succ n) le_rfl)
      | skip next =>
        rw [given_skip move]
        exact (given_skip (flatten_outer_skip move)).trans_le
          (ih.1.trans (runs_le (Nat.le_succ n) le_rfl))
      | force node resume =>
        have moved : ((p.flatten run).step (outer, none)).value =
            .force node fun q => (resume q, none) := flatten_outer_force move
        cases follows : M.after node with
        | none => exact (given_stuck moved follows).trans_le Listing.unknown_le
        | some q =>
          rw [given_force move follows]
          exact (given_force moved follows).trans_le (ih.1.trans (runs_le (Nat.le_succ n) le_rfl))
      | done =>
        rw [given_done move]
        exact (given_done (flatten_outer_done move)).le
    · intro inner
      have behind : runs M run n (given M p.step n outer) ≤
          runs M run (n + 1) (given M p.step (n + 1) outer) := runs_le (Nat.le_succ n) given_le_succ
      cases move : (run inner).value with
      | yield value next =>
        rw [given_yield move, Listing.append_cons]
        exact (given_yield (flatten_yield move)).trans_le
          (Listing.cons_le ((ih.2 next).trans (Listing.append_le le_rfl behind)))
      | skip next =>
        rw [given_skip move]
        exact (given_skip (flatten_inner_skip move)).trans_le
          ((ih.2 next).trans (Listing.append_le le_rfl behind))
      | force node resume =>
        have moved : ((p.flatten run).step (outer, some inner)).value =
            .force node fun q => (outer, some (resume q)) := flatten_inner_force move
        cases follows : M.after node with
        | none => exact (given_stuck moved follows).trans_le Listing.unknown_le
        | some q =>
          rw [given_force move follows]
          exact (given_force moved follows).trans_le
            ((ih.2 (resume q)).trans (Listing.append_le le_rfl behind))
      | done =>
        rw [given_done move, Listing.nil_append]
        exact (given_skip (flatten_inner_done move)).trans_le (ih.1.trans behind)

theorem append_le_given_flatten {l : Listing α}
    (later : l ≤ given M (p.flatten run).step n (outer, none)) :
    (given M run m inner).append l ≤ given M (p.flatten run).step (m + n) (outer, some inner) := by
  induction m generalizing inner with
  | zero => exact Listing.unknown_le
  | succ m ih =>
    rw [Nat.add_right_comm]
    cases move : (run inner).value with
    | yield value next =>
      rw [given_yield move, Listing.append_cons]
      exact (Listing.cons_le ih).trans_eq (given_yield (flatten_yield move)).symm
    | skip next =>
      rw [given_skip move]
      exact ih.trans_eq (given_skip (flatten_inner_skip move)).symm
    | force node resume =>
      have moved : ((p.flatten run).step (outer, some inner)).value =
          .force node fun q => (outer, some (resume q)) := flatten_inner_force move
      cases follows : M.after node with
      | none =>
        rw [given_stuck move follows]
        exact Listing.unknown_le
      | some q =>
        rw [given_force move follows]
        exact ih.trans_eq (given_force moved follows).symm
    | done =>
      rw [given_done move, Listing.nil_append]
      exact later.trans ((given_mono (Nat.le_add_left n m)).trans_eq
        (given_skip (flatten_inner_done move)).symm)

theorem exists_le_given_flatten (outer : p.State) :
    ∃ k, runs M run m (given M p.step n outer) ≤ given M (p.flatten run).step k (outer, none) := by
  induction n generalizing outer with
  | zero => exact ⟨0, Listing.unknown_le⟩
  | succ n ih =>
    cases move : (p.step outer).value with
    | yield start next =>
      obtain ⟨k, le⟩ := ih next
      refine ⟨m + k + 1, ?_⟩
      rw [given_yield move]
      exact (append_le_given_flatten le).trans_eq (given_skip (flatten_start move)).symm
    | skip next =>
      obtain ⟨k, le⟩ := ih next
      refine ⟨k + 1, ?_⟩
      rw [given_skip move]
      exact le.trans_eq (given_skip (flatten_outer_skip move)).symm
    | force node resume =>
      have moved : ((p.flatten run).step (outer, none)).value =
          .force node fun q => (resume q, none) := flatten_outer_force move
      cases follows : M.after node with
      | none =>
        refine ⟨0, ?_⟩
        rw [given_stuck move follows]
        exact Listing.unknown_le
      | some q =>
        obtain ⟨k, le⟩ := ih (resume q)
        refine ⟨k + 1, ?_⟩
        rw [given_force move follows]
        exact le.trans_eq (given_force moved follows).symm
    | done =>
      refine ⟨1, ?_⟩
      rw [given_done move]
      exact (given_done (flatten_outer_done move)).ge

theorem sameLimit_runs :
    Listing.SameLimit (fun n => given M (p.flatten run).step n (outer, none))
      fun n => runs M run n (given M p.step n outer) where
  le n := Listing.eventually_le (fun _ _ later => runs_le later (given_mono later))
    given_flatten_le.1
  ge n := by
    obtain ⟨k, le⟩ := exists_le_given_flatten outer
    exact Listing.eventually_le given_mono le

theorem sameLimit_flatten {ι : Type} {place : ι → σ} {starts starts' : Nat → Listing ι}
    {outs : Nat → ι → Listing α} (started : ∀ n, given M p.step n outer = (starts n).map place)
    (sources : Listing.SameLimit starts starts')
    (each : ∀ i, Listing.SameLimit (fun n => given M run n (place i)) fun n => outs n i) :
    Listing.SameLimit (fun n => given M (p.flatten run).step n (outer, none))
      fun n => ((starts' n).map (outs n)).flatten := by
  apply sameLimit_runs.trans
  have same (n : Nat) : runs M run n (given M p.step n outer) =
      ((starts n).map fun i => given M run n (place i)).flatten := by
    rw [started, runs, Listing.map_map]
    rfl
  simp only [same]
  exact sources.flatten each

end Flatten

end DemandLex.Producer
