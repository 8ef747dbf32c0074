import DemandLex.Proofs.Sequence.Exposure
import DemandLex.Proofs.Sequence.Operators

/-! Runs played one after the other. The producer that starts the runs moves only between two of them:
it has moved as far as the run that an element stands in, and that run as far as the element. -/

namespace DemandLex

open Effect

variable {ω ν σ τ κ α : Type} {M : Meaning ν}

namespace Producer

/-- Runs that have been started one after the other, each of them passed to its end before the next
one is started. -/
inductive Passes (M : Meaning ν) (starts : κ → List (Effect ω) → Option (σ × κ) → Prop)
    (run : σ → Noted ω (Move ν σ α)) : κ → List (Effect ω) → List (List α) → κ → Prop
  | nil {outer : κ} : Passes M starts run outer [] [] outer
  | cons {outer next last : κ} {start : σ} {effects effects' later : List (Effect ω)}
      {outputs : List α} {lists : List (List α)}
      (begins : starts outer effects (some (start, next))) (ends : Ends M run start effects' outputs)
      (passes : Passes M starts run next later lists last) :
      Passes M starts run outer (effects ++ effects' ++ later) (outputs :: lists) last

/-- What is done for the element behind so many others in the concatenation of runs, and that element:
the runs before its own are passed, its own is started and gives it. If there are not so many
elements, all runs are passed, and no other one starts. -/
inductive Joins (M : Meaning ν) (starts : κ → List (Effect ω) → Option (σ × κ) → Prop)
    (run : σ → Noted ω (Move ν σ α)) (outer : κ) (count : Nat) :
    List (Effect ω) → Option α → Prop
  | within {last next : κ} {start inner : σ} {passed effects inside : List (Effect ω)}
      {lists : List (List α)} {index : Nat} {front : List α} {value : α}
      (passes : Passes M starts run outer passed lists last)
      (begins : starts last effects (some (start, next)))
      (exposes : Exposes M run start index inside front (some (value, inner)))
      (place : lists.flatten.length + index = count) :
      Joins M starts run outer count (passed ++ effects ++ inside) (some value)
  | past {last : κ} {passed effects : List (Effect ω)} {lists : List (List α)}
      (passes : Passes M starts run outer passed lists last) (stops : starts last effects none)
      (place : lists.flatten.length ≤ count) :
      Joins M starts run outer count (passed ++ effects) none

section Joins
variable {starts : κ → List (Effect ω) → Option (σ × κ) → Prop} {run : σ → Noted ω (Move ν σ α)}
  {outer next : κ} {start : σ} {effects effects' later : List (Effect ω)} {outputs : List α}
  {shown : Option α} {count : Nat}

theorem Joins.pass (joins : Joins M starts run next count later shown)
    (begins : starts outer effects (some (start, next))) (ends : Ends M run start effects' outputs) :
    Joins M starts run outer (outputs.length + count) (effects ++ effects' ++ later) shown := by
  cases joins with
  | within passes begins' exposes place =>
    have joined : Joins M starts run outer (outputs.length + count) _ _ :=
      .within (.cons begins ends passes) begins' exposes
        (by rw [List.flatten_cons, List.length_append]; omega)
    simpa only [List.append_assoc] using joined
  | past passes stops place =>
    have joined : Joins M starts run outer (outputs.length + count) _ none :=
      .past (.cons begins ends passes) stops
        (by rw [List.flatten_cons, List.length_append]; omega)
    simpa only [List.append_assoc] using joined

theorem Joins.weaken {more : Nat} (joins : Joins M starts run outer count effects none)
    (enough : count ≤ more) : Joins M starts run outer more effects none := by
  cases joins with
  | past passes stops place => exact .past passes stops (place.trans enough)

end Joins

section Flatten
variable {p : Producer ω ν σ} {run : σ → Noted ω (Move ν σ α)} {outer : p.State} {inner : σ}
  {effects effects' : List (Effect ω)} {values values' : List α}
  {r : Option (α × (p.State × Option σ))}

section Moves
variable {node : Node}

theorem flatten_outer_cases (p : Producer ω ν σ) (run : σ → Noted ω (Move ν σ α))
    (outer : p.State) :
    (∃ start next, (p.step outer).value = .yield start next ∧
      ((p.flatten run).step (outer, none)).value = .skip (next, some start)) ∨
    (∃ next, (p.step outer).value = .skip next ∧
      ((p.flatten run).step (outer, none)).value = .skip (next, none)) ∨
    (∃ node resume, (p.step outer).value = .force node resume ∧
      ((p.flatten run).step (outer, none)).value = .force node fun q => (resume q, none)) ∨
    ((p.step outer).value = .done ∧ ((p.flatten run).step (outer, none)).value = .done) := by
  cases move : (p.step outer).value with
  | yield start next => exact Or.inl ⟨start, next, rfl, flatten_start move⟩
  | skip next => exact Or.inr (Or.inl ⟨next, rfl, flatten_outer_skip move⟩)
  | force node resume =>
    exact Or.inr (Or.inr (Or.inl ⟨node, resume, rfl, flatten_outer_force move⟩))
  | done => exact Or.inr (Or.inr (Or.inr ⟨rfl, flatten_outer_done move⟩))

theorem flatten_inner_cases (p : Producer ω ν σ) (run : σ → Noted ω (Move ν σ α)) (outer : p.State)
    (inner : σ) :
    (∃ value next, (run inner).value = .yield value next ∧
      ((p.flatten run).step (outer, some inner)).value = .yield value (outer, some next)) ∨
    (∃ next, (run inner).value = .skip next ∧
      ((p.flatten run).step (outer, some inner)).value = .skip (outer, some next)) ∨
    (∃ node resume, (run inner).value = .force node resume ∧
      ((p.flatten run).step (outer, some inner)).value =
        .force node fun q => (outer, some (resume q))) ∨
    ((run inner).value = .done ∧
      ((p.flatten run).step (outer, some inner)).value = .skip (outer, none)) := by
  cases move : (run inner).value with
  | yield value next => exact Or.inl ⟨value, next, rfl, flatten_yield move⟩
  | skip next => exact Or.inr (Or.inl ⟨next, rfl, flatten_inner_skip move⟩)
  | force node resume =>
    exact Or.inr (Or.inr (Or.inl ⟨node, resume, rfl, flatten_inner_force move⟩))
  | done => exact Or.inr (Or.inr (Or.inr ⟨rfl, flatten_inner_done move⟩))

end Moves

inductive Opens (M : Meaning ν) (p : Producer ω ν σ) (run : σ → Noted ω (Move ν σ α)) :
    p.State × Option σ → List (Effect ω) → List α → Option (α × (p.State × Option σ)) → Prop
  | here {outer : p.State} {inner next : σ} {effects : List (Effect ω)} {value : α}
      (comes : Comes M run inner effects (some (value, next))) :
      Opens M p run (outer, some inner) effects [] (some (value, (outer, some next)))
  | pass {outer : p.State} {inner next : σ} {effects effects' : List (Effect ω)} {value : α}
      {values : List α} {r : Option (α × (p.State × Option σ))}
      (comes : Comes M run inner effects (some (value, next)))
      (later : Opens M p run (outer, some next) effects' values r) :
      Opens M p run (outer, some inner) (effects ++ effects') (value :: values) r
  | past {outer : p.State} {inner : σ} {effects effects' : List (Effect ω)} {values : List α}
      {r : Option (α × (p.State × Option σ))} (ends : Comes M run inner effects none)
      (later : Opens M p run (outer, none) effects' values r) :
      Opens M p run (outer, some inner) (effects ++ effects') values r
  | start {outer next : p.State} {start : σ} {effects effects' : List (Effect ω)} {values : List α}
      {r : Option (α × (p.State × Option σ))}
      (begins : Comes M p.step outer effects (some (start, next)))
      (later : Opens M p run (next, some start) effects' values r) :
      Opens M p run (outer, none) (effects ++ effects') values r
  | stop {outer : p.State} {effects : List (Effect ω)} (stops : Comes M p.step outer effects none) :
      Opens M p run (outer, none) effects [] none

theorem Opens.before_outer {next : p.State} {before : List (Effect ω)}
    (opens : Opens M p run (next, none) effects values r)
    (moves : ∀ effects r, Comes M p.step next effects r → Comes M p.step outer (before ++ effects) r) :
    Opens M p run (outer, none) (before ++ effects) values r := by
  cases opens with
  | start begins later =>
    rw [← List.append_assoc]
    exact .start (moves _ _ begins) later
  | stop stops => exact .stop (moves _ _ stops)

theorem Opens.before_inner {next : σ} {before : List (Effect ω)}
    (opens : Opens M p run (outer, some next) effects values r)
    (moves : ∀ effects r, Comes M run next effects r → Comes M run inner (before ++ effects) r) :
    Opens M p run (outer, some inner) (before ++ effects) values r := by
  cases opens with
  | here comes => exact .here (moves _ _ comes)
  | pass comes later =>
    rw [← List.append_assoc]
    exact .pass (moves _ _ comes) later
  | past ends later =>
    rw [← List.append_assoc]
    exact .past (moves _ _ ends) later

theorem opens_of_comes {state : p.State × Option σ}
    (comes : Comes M (p.flatten run).step state effects r) : Opens M p run state effects [] r := by
  -- The flattened producer yields within a run only and is done between two runs only. Its other moves
  -- are those of the run, or of the producer outside.
  induction comes with
  | @yield state next value move =>
    obtain ⟨outer, _ | inner⟩ := state
    · rcases flatten_outer_cases p run outer with
        ⟨_, _, -, same⟩ | ⟨_, -, same⟩ | ⟨_, _, -, same⟩ | ⟨-, same⟩ <;>
        rw [same] at move <;> cases move
    · rcases flatten_inner_cases p run outer inner with
        ⟨_, _, moved, same⟩ | ⟨_, -, same⟩ | ⟨_, _, -, same⟩ | ⟨-, same⟩ <;>
        rw [same] at move <;> cases move
      rw [notes_flatten_inner outer]
      exact .here (.yield moved)
  | @done state move =>
    obtain ⟨outer, _ | inner⟩ := state
    · rcases flatten_outer_cases p run outer with
        ⟨_, _, -, same⟩ | ⟨_, -, same⟩ | ⟨_, _, -, same⟩ | ⟨moved, same⟩ <;>
        rw [same] at move <;> cases move
      rw [notes_flatten_outer run]
      exact .stop (.done moved)
    · rcases flatten_inner_cases p run outer inner with
        ⟨_, _, -, same⟩ | ⟨_, -, same⟩ | ⟨_, _, -, same⟩ | ⟨-, same⟩ <;>
        rw [same] at move <;> cases move
  | @skip state next effects r move later ih =>
    obtain ⟨outer, _ | inner⟩ := state
    · rcases flatten_outer_cases p run outer with
        ⟨_, _, moved, same⟩ | ⟨_, moved, same⟩ | ⟨_, _, -, same⟩ | ⟨-, same⟩ <;>
        rw [same] at move <;> cases move <;> rw [notes_flatten_outer run]
      · exact .start (.yield moved) ih
      · exact ih.before_outer fun _ _ => .skip moved
    · rcases flatten_inner_cases p run outer inner with
        ⟨_, _, -, same⟩ | ⟨_, moved, same⟩ | ⟨_, _, -, same⟩ | ⟨moved, same⟩ <;>
        rw [same] at move <;> cases move <;> rw [notes_flatten_inner outer]
      · exact ih.before_inner fun _ _ => .skip moved
      · exact .past (.done moved) ih
  | @force state node resume q effects r move follows later ih =>
    obtain ⟨outer, _ | inner⟩ := state
    · rcases flatten_outer_cases p run outer with
        ⟨_, _, -, same⟩ | ⟨_, -, same⟩ | ⟨_, _, moved, same⟩ | ⟨-, same⟩ <;>
        rw [same] at move <;> cases move
      rw [notes_flatten_outer run, List.append_cons]
      refine ih.before_outer fun effects r comes => ?_
      rw [← List.append_cons]
      exact .force moved follows comes
    · rcases flatten_inner_cases p run outer inner with
        ⟨_, _, -, same⟩ | ⟨_, -, same⟩ | ⟨_, _, moved, same⟩ | ⟨-, same⟩ <;>
        rw [same] at move <;> cases move
      rw [notes_flatten_inner outer, List.append_cons]
      refine ih.before_inner fun effects r comes => ?_
      rw [← List.append_cons]
      exact .force moved follows comes

theorem Opens.then {state state' : p.State × Option σ} {value : α}
    (first : Opens M p run state effects [] (some (value, state')))
    (later : Opens M p run state' effects' values r) :
    Opens M p run state (effects ++ effects') (value :: values) r := by
  generalize origin : ([] : List α) = none at first
  generalize target : some (value, state') = r' at first
  induction first with
  | here comes =>
    cases target
    exact .pass comes later
  | pass => cases origin
  | past ends _ ih =>
    rw [List.append_assoc]
    exact .past ends (ih origin target)
  | start begins _ ih =>
    rw [List.append_assoc]
    exact .start begins (ih origin target)
  | stop => cases target

theorem opens_of_runs {state last : p.State × Option σ}
    (runs : Runs M (p.flatten run).step state effects values last)
    (comes : Comes M (p.flatten run).step last effects' r) :
    Opens M p run state (effects ++ effects') values r := by
  induction runs with
  | nil => exact opens_of_comes comes
  | cons first later ih =>
    rw [List.append_assoc]
    exact (opens_of_comes first).then (ih comes)

section Back

theorem comes_here {next : σ} {value : α} (comes : Comes M run inner effects (some (value, next))) :
    Comes M (p.flatten run).step (outer, some inner) effects (some (value, (outer, some next))) := by
  generalize same : some (value, next) = r at comes
  induction comes with
  | yield move =>
    cases same
    rw [← notes_flatten_inner outer]
    exact .yield (flatten_yield move)
  | done => cases same
  | skip move later ih =>
    rw [← notes_flatten_inner outer]
    exact .skip (flatten_inner_skip move) (ih same)
  | force move follows later ih =>
    rw [← notes_flatten_inner outer]
    exact .force (flatten_inner_force move) follows (ih same)

theorem comes_over (ends : Comes M run inner effects none)
    (later : Comes M (p.flatten run).step (outer, none) effects' r) :
    Comes M (p.flatten run).step (outer, some inner) (effects ++ effects') r := by
  generalize same : (none : Option (α × σ)) = ended at ends
  induction ends with
  | yield => cases same
  | done move =>
    rw [← notes_flatten_inner outer]
    exact .skip (flatten_inner_done move) later
  | skip move _ ih =>
    rw [← notes_flatten_inner outer, List.append_assoc]
    exact .skip (flatten_inner_skip move) (ih same)
  | force move follows _ ih =>
    rw [← notes_flatten_inner outer, List.append_assoc]
    exact .force (flatten_inner_force move) follows (ih same)

theorem comes_start {start : σ} {next : p.State}
    (begins : Comes M p.step outer effects (some (start, next)))
    (later : Comes M (p.flatten run).step (next, some start) effects' r) :
    Comes M (p.flatten run).step (outer, none) (effects ++ effects') r := by
  generalize same : some (start, next) = r' at begins
  induction begins with
  | yield move =>
    cases same
    rw [← notes_flatten_outer run]
    exact .skip (flatten_start move) later
  | done => cases same
  | skip move _ ih =>
    rw [← notes_flatten_outer run, List.append_assoc]
    exact .skip (flatten_outer_skip move) (ih same)
  | force move follows _ ih =>
    rw [← notes_flatten_outer run, List.append_assoc]
    exact .force (flatten_outer_force move) follows (ih same)

theorem comes_stop (stops : Comes M p.step outer effects none) :
    Comes M (p.flatten run).step (outer, none) effects none := by
  generalize same : (none : Option (σ × p.State)) = r at stops
  induction stops with
  | yield => cases same
  | done move =>
    rw [← notes_flatten_outer run]
    exact .done (flatten_outer_done move)
  | skip move _ ih =>
    rw [← notes_flatten_outer run]
    exact .skip (flatten_outer_skip move) (ih same)
  | force move follows _ ih =>
    rw [← notes_flatten_outer run]
    exact .force (flatten_outer_force move) follows (ih same)

end Back

theorem Opens.runs {state : p.State × Option σ} (opens : Opens M p run state effects values r) :
    ∃ before behind last, Runs M (p.flatten run).step state before values last ∧
      Comes M (p.flatten run).step last behind r ∧ effects = before ++ behind := by
  induction opens with
  | here comes => exact ⟨[], _, _, .nil, comes_here comes, rfl⟩
  | pass comes later ih =>
    obtain ⟨before, behind, last, runs, comes', rfl⟩ := ih
    exact ⟨_, behind, last, .cons (comes_here comes) runs, comes', (List.append_assoc ..).symm⟩
  | past ends later ih =>
    obtain ⟨before, behind, last, runs, comes, rfl⟩ := ih
    exact runs.before comes fun _ _ => comes_over ends
  | start begins later ih =>
    obtain ⟨before, behind, last, runs, comes, rfl⟩ := ih
    exact runs.before comes fun _ _ => comes_start begins
  | stop stops => exact ⟨[], _, _, .nil, comes_stop stops, rfl⟩

theorem Opens.joins {state : p.State × Option σ} (opens : Opens M p run state effects values r) :
    match state.2 with
    | none => Joins M (Comes M p.step) run state.1 values.length effects (r.map Prod.fst)
    | some inner =>
      (∃ value next, r = some (value, (state.1, some next)) ∧
        Exposes M run inner values.length effects values (some (value, next))) ∨
      ∃ before behind front later, Ends M run inner before front ∧
        Joins M (Comes M p.step) run state.1 later.length behind (r.map Prod.fst) ∧
        effects = before ++ behind ∧ values = front ++ later := by
  induction opens with
  | here comes => exact Or.inl ⟨_, _, rfl, .here comes⟩
  | pass comes later ih =>
    rcases ih with ⟨value, next, rfl, exposes⟩ | ⟨before, behind, front, others, ends, joins, rfl, rfl⟩
    · exact Or.inl ⟨value, next, rfl, .pass comes exposes⟩
    · exact Or.inr ⟨_, behind, _ :: front, others, .pass comes ends, joins,
        (List.append_assoc ..).symm, rfl⟩
  | past ends later ih => exact Or.inr ⟨_, _, [], _, .here ends, ih, rfl, rfl⟩
  | start begins later ih =>
    rcases ih with ⟨value, next, rfl, exposes⟩ | ⟨before, behind, front, later, ends, joins, rfl, rfl⟩
    · exact .within .nil begins exposes (Nat.zero_add _)
    · rw [List.length_append, ← List.append_assoc]
      exact joins.pass begins ends
  | stop stops => exact .past .nil stops le_rfl

section Back

theorem Opens.of_inner {start : σ} (runs : Runs M run start effects values inner)
    (opens : Opens M p run (outer, some inner) effects' values' r) :
    Opens M p run (outer, some start) (effects ++ effects') (values ++ values') r := by
  induction runs with
  | nil => exact opens
  | cons first later ih =>
    rw [List.append_assoc]
    exact .pass first (ih opens)

theorem Opens.of_passes {lists : List (List α)} {last : p.State}
    (passes : Passes M (Comes M p.step) run outer effects lists last)
    (opens : Opens M p run (last, none) effects' values r) :
    Opens M p run (outer, none) (effects ++ effects') (lists.flatten ++ values) r := by
  induction passes with
  | nil => exact opens
  | cons begins ends _ ih =>
    obtain ⟨before, behind, inner, runs, comes, rfl⟩ := ends
    have inside := Opens.of_inner runs (.past comes (ih opens))
    simpa only [List.flatten_cons, List.append_assoc] using Opens.start begins inside

theorem Joins.opens {count : Nat} {shown : Option α}
    (joins : Joins M (Comes M p.step) run outer count effects shown) :
    ∃ values r, Opens M p run (outer, none) effects values r ∧ r.map Prod.fst = shown ∧
      (values.length = count ∨ values.length < count ∧ r = none) := by
  cases joins with
  | @within last next start inner passed effects inside lists index front value passes begins exposes
      place =>
    obtain ⟨before, behind, last', runs, comes, rfl, places⟩ := exposes
    have opens := Opens.of_passes passes (.start begins (Opens.of_inner runs (.here comes)))
    rw [← List.append_assoc] at opens
    refine ⟨_, _, opens, rfl, Or.inl ?_⟩
    rcases places with same | ⟨-, ⟨⟩⟩
    simp only [List.length_append, List.length_nil]
    omega
  | past passes stops place =>
    refine ⟨_, _, Opens.of_passes passes (.stop stops), rfl, ?_⟩
    rw [List.append_nil]
    rcases place.eq_or_lt with same | fewer
    · exact Or.inl same
    · exact Or.inr ⟨fewer, rfl⟩

end Back

/-- Runs played one after the other expose just the elements of their concatenation. -/
theorem joins_iff {count : Nat} {shown : Option α} :
    Joins M (Comes M p.step) run outer count effects shown ↔
      ∃ values r, Exposes M (p.flatten run).step (outer, none) count effects values r ∧
        r.map Prod.fst = shown := by
  constructor
  · intro joins
    obtain ⟨values, r, opens, same, places⟩ := joins.opens
    obtain ⟨before, behind, last, runs, comes, rfl⟩ := opens.runs
    exact ⟨values, r, ⟨before, behind, last, runs, comes, rfl, places⟩, same⟩
  · rintro ⟨values, r, ⟨before, behind, last, runs, comes, rfl, places⟩, rfl⟩
    have joins : Joins M (Comes M p.step) run outer values.length (before ++ behind)
        (r.map Prod.fst) := (opens_of_runs runs comes).joins
    rcases places with rfl | ⟨fewer, rfl⟩
    · exact joins
    · exact joins.weaken fewer.le

end Flatten

end Producer

end DemandLex
