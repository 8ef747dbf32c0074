import DemandLex.Proofs.Sequence.Demand

/-! What computations do, in the order in which they do it: the notes they take and the looks they
make behind nodes. A producer does this on the way to its elements, and a store undergoes it. -/

namespace DemandLex

variable {ω ν σ τ α : Type} {M N : Meaning ν}

/-- A computation takes a note, or it looks behind a node. -/
inductive Effect (ω : Type) where
  | note (entry : ω)
  | look (node : Node)

namespace Effect

def noting (notes : List ω) : List (Effect ω) := notes.map .note

@[simp] theorem noting_nil : noting ([] : List ω) = [] := rfl

@[simp] theorem noting_append (first second : List ω) :
    noting (first ++ second) = noting first ++ noting second := List.map_append

def looking (cells : List (Cell ν)) : List (Effect ω) := cells.map fun cell => .look cell.node

theorem looking_append (first second : List (Cell ν)) :
    (looking (first ++ second) : List (Effect ω)) = looking first ++ looking second :=
  List.map_append

def notes (effects : List (Effect ω)) : List ω :=
  effects.filterMap fun effect => match effect with
    | note entry => some entry
    | look _ => none

def nodes (effects : List (Effect ω)) : List Node :=
  effects.filterMap fun effect => match effect with
    | note _ => none
    | look node => some node

section Parts
variable {first second : List (Effect ω)} {taken : List ω} {cells : List (Cell ν)}

@[simp] theorem notes_append : notes (first ++ second) = notes first ++ notes second :=
  List.filterMap_append

@[simp] theorem nodes_append : nodes (first ++ second) = nodes first ++ nodes second :=
  List.filterMap_append

@[simp] theorem notes_noting : notes (noting taken) = taken := by simp [notes, noting]

@[simp] theorem nodes_noting : nodes (noting taken) = [] := by simp [nodes, noting]

@[simp] theorem notes_looking : notes (ω := ω) (looking cells) = [] := by simp [notes, looking]

@[simp] theorem nodes_looking : nodes (ω := ω) (looking cells) = cells.map Cell.node := by
  simp [nodes, looking]

end Parts

end Effect

open Effect

namespace Producer

/-- A producer comes to its next element or to its end, and has these effects on the way. -/
inductive Comes (M : Meaning ν) (step : σ → Noted ω (Move ν σ α)) :
    σ → List (Effect ω) → Option (α × σ) → Prop
  | yield {s next : σ} {value : α} (move : (step s).value = .yield value next) :
      Comes M step s (noting (step s).notes) (some (value, next))
  | done {s : σ} (move : (step s).value = .done) : Comes M step s (noting (step s).notes) none
  | skip {s next : σ} {effects : List (Effect ω)} {r : Option (α × σ)}
      (move : (step s).value = .skip next) (later : Comes M step next effects r) :
      Comes M step s (noting (step s).notes ++ effects) r
  | force {s : σ} {node : Node} {resume : Sequence ν → σ} {q : Sequence ν}
      {effects : List (Effect ω)} {r : Option (α × σ)}
      (move : (step s).value = .force node resume) (follows : M.after node = some q)
      (later : Comes M step (resume q) effects r) :
      Comes M step s (noting (step s).notes ++ .look node :: effects) r

inductive Runs (M : Meaning ν) (step : σ → Noted ω (Move ν σ α)) :
    σ → List (Effect ω) → List α → σ → Prop
  | nil {s : σ} : Runs M step s [] [] s
  | cons {s next last : σ} {value : α} {values : List α} {effects effects' : List (Effect ω)}
      (first : Comes M step s effects (some (value, next)))
      (later : Runs M step next effects' values last) :
      Runs M step s (effects ++ effects') (value :: values) last

def Ends (M : Meaning ν) (step : σ → Noted ω (Move ν σ α)) (s : σ) (effects : List (Effect ω))
    (values : List α) : Prop :=
  ∃ before behind last, Runs M step s before values last ∧ Comes M step last behind none ∧
    effects = before ++ behind

/-- What a producer does up to the element behind so many others, or up to its end if that comes
first. -/
def Exposes (M : Meaning ν) (step : σ → Noted ω (Move ν σ α)) (s : σ) (count : Nat)
    (effects : List (Effect ω)) (values : List α) (r : Option (α × σ)) : Prop :=
  ∃ before behind last, Runs M step s before values last ∧ Comes M step last behind r ∧
    effects = before ++ behind ∧ (values.length = count ∨ values.length < count ∧ r = none)

section Comes
variable {step : σ → Noted ω (Move ν σ α)} {s next last : σ} {effects effects' : List (Effect ω)}
  {r : Option (α × σ)}

theorem comes_yield {value : α} (move : (step s).value = .yield value next) :
    Comes M step s effects r ↔ effects = noting (step s).notes ∧ r = some (value, next) := by
  constructor
  · intro comes
    cases comes with
    | yield move' => cases move.symm.trans move'; exact ⟨rfl, rfl⟩
    | done move' | skip move' | force move' => cases move.symm.trans move'
  · rintro ⟨rfl, rfl⟩
    exact .yield move

theorem comes_done (move : (step s).value = .done) :
    Comes M step s effects r ↔ effects = noting (step s).notes ∧ r = none := by
  constructor
  · intro comes
    cases comes with
    | done move' => exact ⟨rfl, rfl⟩
    | yield move' | skip move' | force move' => cases move.symm.trans move'
  · rintro ⟨rfl, rfl⟩
    exact .done move

theorem comes_skip (move : (step s).value = .skip next) :
    Comes M step s effects r ↔
      ∃ later, effects = noting (step s).notes ++ later ∧ Comes M step next later r := by
  constructor
  · intro comes
    cases comes with
    | skip move' later => cases move.symm.trans move'; exact ⟨_, rfl, later⟩
    | yield move' | done move' | force move' => cases move.symm.trans move'
  · rintro ⟨later, rfl, comes⟩
    exact .skip move comes

theorem comes_force {node : Node} {resume : Sequence ν → σ}
    (move : (step s).value = .force node resume) :
    Comes M step s effects r ↔ ∃ q later, M.after node = some q ∧
      effects = noting (step s).notes ++ .look node :: later ∧ Comes M step (resume q) later r := by
  constructor
  · intro comes
    cases comes with
    | force move' follows later => cases move.symm.trans move'; exact ⟨_, _, follows, rfl, later⟩
    | yield move' | done move' | skip move' => cases move.symm.trans move'
  · rintro ⟨q, later, follows, rfl, comes⟩
    exact .force move follows comes

theorem Comes.reaches (comes : Comes M step s effects r) : Reaches M step s r := by
  induction comes with
  | yield move => exact .yield move
  | done move => exact .done move
  | skip move later ih => exact .skip move ih
  | force move follows later ih => exact .force move follows ih

theorem Reaches.comes (reached : Reaches M step s r) : ∃ effects, Comes M step s effects r := by
  induction reached with
  | yield move => exact ⟨_, .yield move⟩
  | done move => exact ⟨_, .done move⟩
  | skip move later ih =>
    obtain ⟨effects, comes⟩ := ih
    exact ⟨_, .skip move comes⟩
  | force move follows later ih =>
    obtain ⟨effects, comes⟩ := ih
    exact ⟨_, .force move follows comes⟩

theorem Comes.unique {r' : Option (α × σ)} (left : Comes M step s effects r)
    (right : Comes M step s effects' r') : effects = effects' ∧ r = r' := by
  induction left generalizing effects' with
  | yield move =>
    obtain ⟨rfl, rfl⟩ := (comes_yield move).mp right
    exact ⟨rfl, rfl⟩
  | done move =>
    obtain ⟨rfl, rfl⟩ := (comes_done move).mp right
    exact ⟨rfl, rfl⟩
  | skip move later ih =>
    obtain ⟨later', rfl, right'⟩ := (comes_skip move).mp right
    obtain ⟨rfl, rfl⟩ := ih right'
    exact ⟨rfl, rfl⟩
  | force move follows later ih =>
    obtain ⟨q, later', follows', rfl, right'⟩ := (comes_force move).mp right
    cases follows.symm.trans follows'
    obtain ⟨rfl, rfl⟩ := ih right'
    exact ⟨rfl, rfl⟩

theorem Runs.append {values values' : List α} {middle : σ}
    (front : Runs M step s effects values middle) (back : Runs M step middle effects' values' last) :
    Runs M step s (effects ++ effects') (values ++ values') last := by
  induction front with
  | nil => exact back
  | cons first later ih =>
    rw [List.append_assoc]
    exact .cons first (ih back)

theorem Runs.concat {values : List α} {value : α} {middle : σ}
    (front : Runs M step s effects values middle)
    (back : Comes M step middle effects' (some (value, last))) :
    Runs M step s (effects ++ effects') (values ++ [value]) last := by
  have one : Runs M step middle (effects' ++ []) [value] last := .cons back .nil
  rw [List.append_nil] at one
  exact front.append one

theorem Runs.of_concat {values : List α} {value : α}
    (runs : Runs M step s effects (values ++ [value]) last) :
    ∃ before behind middle, Runs M step s before values middle ∧
      Comes M step middle behind (some (value, last)) ∧ effects = before ++ behind := by
  induction values generalizing s effects with
  | nil =>
    cases runs with
    | cons first later =>
      cases later
      exact ⟨[], _, s, .nil, first, by rw [List.append_nil, List.nil_append]⟩
  | cons first values ih =>
    cases runs with
    | cons comes later =>
      obtain ⟨before, behind, middle, runs, last, rfl⟩ := ih later
      exact ⟨_, behind, middle, .cons comes runs, last, (List.append_assoc ..).symm⟩

theorem Runs.first {values : List α} (runs : Runs M step s effects values last)
    (comes : Comes M step last effects' r) : ∃ effects r, Comes M step s effects r := by
  cases runs with
  | nil => exact ⟨_, _, comes⟩
  | cons first later => exact ⟨_, _, first⟩

theorem Runs.before {values : List α} {s' : σ} {first behind : List (Effect ω)}
    (runs : Runs M step s' effects values last) (comes : Comes M step last behind r)
    (same : ∀ later r, Comes M step s' later r → Comes M step s (first ++ later) r) :
    ∃ effects' behind' last', Runs M step s effects' values last' ∧
      Comes M step last' behind' r ∧ first ++ (effects ++ behind) = effects' ++ behind' := by
  cases runs with
  | nil => exact ⟨[], _, s, .nil, same _ _ comes, rfl⟩
  | cons found later =>
    exact ⟨_, behind, last, .cons (same _ _ found) later, comes, by simp only [List.append_assoc]⟩

/-- A state that comes to rest only where another one does, behind some effects. -/
theorem Runs.behind {values : List α} {s' : σ} {first behind : List (Effect ω)}
    (runs : Runs M step s effects values last) (comes : Comes M step last behind r)
    (same : ∀ later r, Comes M step s later r →
      ∃ later', Comes M step s' later' r ∧ later = first ++ later') :
    ∃ effects' behind' last', Runs M step s' effects' values last' ∧
      Comes M step last' behind' r ∧ effects ++ behind = first ++ (effects' ++ behind') := by
  cases runs with
  | nil =>
    obtain ⟨later, comes', rfl⟩ := same _ _ comes
    exact ⟨[], later, s', .nil, comes', rfl⟩
  | cons found later =>
    obtain ⟨before, found', rfl⟩ := same _ _ found
    exact ⟨_, behind, last, .cons found' later, comes, by simp only [List.append_assoc]⟩

section Exposes
variable {value : α} {values : List α} {count : Nat}

theorem Exposes.here (comes : Comes M step s effects r) : Exposes M step s 0 effects [] r :=
  ⟨[], effects, s, .nil, comes, rfl, Or.inl rfl⟩

theorem Exposes.first (exposes : Exposes M step s count effects values r) :
    ∃ effects r, Comes M step s effects r := by
  obtain ⟨before, behind, last, runs, comes, -⟩ := exposes
  exact runs.first comes

theorem Exposes.before {s' : σ} {first : List (Effect ω)}
    (exposes : Exposes M step s' count effects values r)
    (same : ∀ later r, Comes M step s' later r → Comes M step s (first ++ later) r) :
    Exposes M step s count (first ++ effects) values r := by
  obtain ⟨before, behind, last, runs, comes, rfl, places⟩ := exposes
  obtain ⟨before', behind', last', runs', comes', same'⟩ := runs.before comes same
  exact ⟨before', behind', last', runs', comes', same', places⟩

theorem Exposes.pass (first : Comes M step s effects (some (value, next)))
    (later : Exposes M step next count effects' values r) :
    Exposes M step s (count + 1) (effects ++ effects') (value :: values) r := by
  obtain ⟨before, behind, last, runs, comes, rfl, places⟩ := later
  refine ⟨_, behind, last, .cons first runs, comes, (List.append_assoc ..).symm, ?_⟩
  rw [List.length_cons]
  rcases places with rfl | ⟨fewer, rfl⟩
  · exact Or.inl rfl
  · exact Or.inr ⟨Nat.succ_lt_succ fewer, rfl⟩

theorem Ends.here (comes : Comes M step s effects none) : Ends M step s effects [] :=
  ⟨[], effects, s, .nil, comes, rfl⟩

theorem Ends.pass (first : Comes M step s effects (some (value, next)))
    (later : Ends M step next effects' values) :
    Ends M step s (effects ++ effects') (value :: values) := by
  obtain ⟨before, behind, last, runs, comes, rfl⟩ := later
  exact ⟨_, behind, last, .cons first runs, comes, (List.append_assoc ..).symm⟩

theorem Ends.gives (ends : Ends M step s effects values) : Gives M step s values := by
  obtain ⟨before, behind, last, runs, comes, -⟩ := ends
  induction runs with
  | nil => exact gives_nil.mpr comes.reaches
  | cons first later ih => exact gives_cons.mpr ⟨_, first.reaches, ih comes⟩

end Exposes

theorem Comes.agree {bound : Nat} {sizes : Nat → Nat} (comes : Comes M step s effects r)
    (grounded : Grounded bound step sizes s) (agree : M.Agree N bound)
    (descends : M.Descends bound) : Comes N step s effects r := by
  induction comes generalizing sizes with
  | yield move => exact .yield move
  | done move => exact .done move
  | skip move later ih =>
    have keeps := grounded.keeps
    rw [move] at keeps
    exact .skip move (ih keeps)
  | force move follows later ih =>
    obtain ⟨older, next⟩ := grounded.resume descends move follows
    exact .force move ((agree.after older).trans follows) (ih next)

theorem Runs.agree {bound : Nat} {sizes : Nat → Nat} {values : List α}
    (runs : Runs M step s effects values last) (grounded : Grounded bound step sizes s)
    (agree : M.Agree N bound) (descends : M.Descends bound) :
    Runs N step s effects values last ∧ ∃ sizes, Grounded bound step sizes last := by
  induction runs generalizing sizes with
  | nil => exact ⟨.nil, sizes, grounded⟩
  | cons first later ih =>
    obtain ⟨sizes', next⟩ := first.reaches.grounded grounded descends
    obtain ⟨runs, behind⟩ := ih next
    exact ⟨.cons (first.agree grounded agree descends) runs, behind⟩

theorem Comes.place {step' : τ → Noted ω (Move ν τ α)} (place : σ → τ)
    (notes : ∀ s, (step' (place s)).notes = (step s).notes)
    (moves : ∀ s, (step' (place s)).value = (step s).value.lift place)
    (comes : Comes M step s effects r) :
    Comes M step' (place s) effects (r.map fun found => (found.1, place found.2)) := by
  induction comes with
  | yield move =>
    rw [← notes]
    exact .yield (by rw [moves, move]; rfl)
  | done move =>
    rw [← notes]
    exact .done (by rw [moves, move]; rfl)
  | skip move later ih =>
    rw [← notes]
    exact .skip (by rw [moves, move]; rfl) ih
  | force move follows later ih =>
    rw [← notes]
    exact .force (by rw [moves, move]; rfl) follows ih

end Comes

section Reading
variable {s t : Sequence ν} {node : Node} {cells : List (Cell ν)} {values : List ν} {count : Nat}
  {effects behind : List (Effect ω)} {r : Option (ν × Reading ν)} {last : Reading ν}

def readingAt (t : Sequence ν) : Option (ν × Reading ν) :=
  Option.map (fun cell => (cell.value, .after cell.node)) t

theorem comes_reading_here :
    Comes M reading (.here t) effects r ↔ effects = [] ∧ r = readingAt t := by
  cases t with
  | none => exact comes_done rfl
  | some cell => exact comes_yield rfl

theorem comes_reading_after :
    Comes M reading (.after node) effects r ↔
      ∃ q, M.after node = some q ∧ effects = [.look node] ∧ r = readingAt q := by
  constructor
  · intro comes
    obtain ⟨q, later, follows, rfl, comes'⟩ := (comes_force rfl).mp comes
    obtain ⟨rfl, rfl⟩ := comes_reading_here.mp comes'
    exact ⟨q, follows, rfl, rfl⟩
  · rintro ⟨q, follows, rfl, rfl⟩
    exact .force rfl follows (comes_reading_here.mpr ⟨rfl, rfl⟩)

theorem runs_reading (walks : M.Walks s cells t) :
    ∃ before behind last, Runs M (reading (ω := ω)) (.here s) before (cells.map Cell.value) last ∧
      Comes M reading last behind (readingAt t) ∧ looking cells = before ++ behind := by
  induction walks with
  | nil => exact ⟨[], [], _, .nil, comes_reading_here.mpr ⟨rfl, rfl⟩, rfl⟩
  | @cons cell rest t cells follows tail ih =>
    obtain ⟨before, behind, last, runs, comes, same⟩ := ih
    have ahead (later : List (Effect ω)) (r : Option (ν × Reading ν))
        (comes : Comes M reading (.here rest) later r) :
        Comes M reading (.after cell.node) ([.look cell.node] ++ later) r := .force rfl follows comes
    obtain ⟨before', behind', last', runs', comes', same'⟩ := runs.before comes ahead
    rw [← same] at same'
    exact ⟨_, behind', last', .cons (comes_reading_here.mpr ⟨rfl, rfl⟩) runs', comes', same'⟩

theorem walks_of_runs (runs : Runs M reading (.here s) effects values last)
    (comes : Comes M reading last behind r) :
    ∃ cells t, M.Walks s cells t ∧ effects ++ behind = looking cells ∧
      values = cells.map Cell.value ∧ r = readingAt t := by
  induction values generalizing s effects behind last with
  | nil =>
    cases runs
    obtain ⟨rfl, rfl⟩ := comes_reading_here.mp comes
    exact ⟨[], s, .nil, rfl, rfl, rfl⟩
  | cons value values ih =>
    cases runs with
    | cons first later =>
      obtain ⟨rfl, given⟩ := comes_reading_here.mp first
      cases s with
      | none => cases given
      | some cell =>
        cases given
        obtain ⟨_, _, second⟩ := later.first comes
        obtain ⟨q, follows, -⟩ := comes_reading_after.mp second
        have ahead (later : List (Effect ω)) (r : Option (ν × Reading ν))
            (comes : Comes M reading (.after cell.node) later r) :
            ∃ later', Comes M reading (.here q) later' r ∧ later = [.look cell.node] ++ later' := by
          obtain ⟨q', follows', rfl, rfl⟩ := comes_reading_after.mp comes
          cases follows.symm.trans follows'
          exact ⟨[], comes_reading_here.mpr ⟨rfl, rfl⟩, rfl⟩
        obtain ⟨before, behind', last', runs', comes', same⟩ := later.behind comes ahead
        obtain ⟨cells, t, walks, looks, rfl, rfl⟩ := ih runs' comes'
        refine ⟨cell :: cells, t, .cons follows walks, ?_, rfl, rfl⟩
        rw [List.nil_append, same, looks]
        rfl

end Reading

end Producer

namespace Store

variable {store store' other other' last : Store ω ν} {effects effects' : List (Effect ω)}

inductive Undergoes : Store ω ν → List (Effect ω) → Store ω ν → Prop
  | nil {store : Store ω ν} : Undergoes store [] store
  | note {store last : Store ω ν} {entry : ω} {effects : List (Effect ω)}
      (later : Undergoes (store.log [entry]) effects last) :
      Undergoes store (.note entry :: effects) last
  | look {store store' last : Store ω ν} {node : Node} {q : Sequence ν} {effects : List (Effect ω)}
      (there : node.index < store.size node.spine)
      (found : Settles (fun fuel => rest fuel node store) (q, store'))
      (later : Undergoes store' effects last) : Undergoes store (.look node :: effects) last

theorem Undergoes.append (first : store.Undergoes effects store')
    (second : store'.Undergoes effects' last) : store.Undergoes (effects ++ effects') last := by
  induction first with
  | nil => exact second
  | note later ih => exact .note (ih second)
  | look there found later ih => exact .look there found (ih second)

theorem Undergoes.unique (left : store.Undergoes effects other)
    (right : store.Undergoes effects other') : other = other' := by
  induction left with
  | nil => cases right; rfl
  | note later ih =>
    cases right with
    | note later' => exact ih later'
  | look _ found later ih =>
    cases right with
    | look _ found' later' =>
      cases found.unique found'
      exact ih later'

theorem undergoes_noting {notes : List ω} :
    store.Undergoes (noting notes ++ effects) last ↔ (store.log notes).Undergoes effects last := by
  induction notes generalizing store with
  | nil => exact Iff.rfl
  | cons entry notes ih =>
    have first : store.Undergoes (noting (entry :: notes) ++ effects) last ↔
        (store.log [entry]).Undergoes (noting notes ++ effects) last := by
      constructor
      · rintro ⟨later⟩
        assumption
      · exact .note
    exact first.trans ih

theorem undergoes_log {notes : List ω} : store.Undergoes (noting notes) (store.log notes) := by
  rw [← List.append_nil (noting notes), undergoes_noting]
  exact .nil

end Store

end DemandLex
