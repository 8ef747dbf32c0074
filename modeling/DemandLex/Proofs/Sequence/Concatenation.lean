import DemandLex.Proofs.Sequence.Flattening
import DemandLex.Proofs.Sequence.Reaction
import DemandLex.Proofs.Sequence.Drawing

/-! Lazy concatenation. Runs played one after the other are asked for one element at a time: the
producer that starts the runs has moved only as far as the run that an element stands in, and that
run only as far as the element. -/

namespace DemandLex

open Effect

variable {ω ν σ τ κ α : Type} {M : Meaning ν}

namespace Producer

section PlayList

theorem ends_playList (items : List α) : Ends M (playList (ω := ω)) items [] items := by
  induction items with
  | nil => exact .here (.done rfl)
  | cons item items ih =>
    have comes : Comes M (playList (ω := ω)) (item :: items) [] (some (item, items)) := .yield rfl
    exact .pass comes ih

theorem exposes_playList (front : List α) (item : α) (rest : List α) :
    Exposes M (playList (ω := ω)) (front ++ item :: rest) front.length [] front
      (some (item, rest)) := by
  induction front with
  | nil => exact .here (.yield rfl)
  | cons first front ih =>
    have comes : Comes M (playList (ω := ω)) (first :: (front ++ item :: rest)) []
        (some (first, front ++ item :: rest)) := .yield rfl
    exact .pass comes ih

end PlayList

section FlatScan
variable {p : Producer ω ν α}

/-- A step with a state that every element is run through in turn, to start a run from it. -/
inductive Threads (M : Meaning ν) (p : Producer ω ν α) (step : τ → α → Noted ω (τ × σ)) :
    p.State × τ → List (Effect ω) → Option (σ × (p.State × τ)) → Prop
  | start {s next : p.State} {carried : τ} {value : α} {effects : List (Effect ω)}
      (comes : Comes M p.step s effects (some (value, next))) :
      Threads M p step (s, carried) (effects ++ noting (step carried value).notes)
        (some ((step carried value).value.2, (next, (step carried value).value.1)))
  | stop {s : p.State} {carried : τ} {effects : List (Effect ω)}
      (comes : Comes M p.step s effects none) : Threads M p step (s, carried) effects none

theorem threads_iff {start : τ} {step : τ → α → Noted ω (τ × σ)} {state : p.State × τ}
    {effects : List (Effect ω)} {r : Option (σ × (p.State × τ))} :
    Threads M p step state effects r ↔
      Comes M (p.scanFilter start fun carried value => do
        let (next, output) ← step carried value
        pure (next, some output)).step state effects r := by
  obtain ⟨s, carried⟩ := state
  rw [comes_scanFilter]
  constructor
  · intro threads
    cases threads with
    | start comes =>
      exact ⟨_, _, _, comes, .give rfl, by rw [Noted.notes_bind, Noted.notes_pure, List.append_nil]⟩
    | stop comes => exact ⟨_, none, [], comes, .stop, (List.append_nil _).symm⟩
  · rintro ⟨before, found, behind, comes, reacts, rfl⟩
    cases reacts with
    | stop =>
      rw [List.append_nil]
      exact .stop comes
    | give given =>
      cases given
      rw [Noted.notes_bind, Noted.notes_pure, List.append_nil]
      exact .start comes
    | absorb given => cases given

theorem joins_threads {start : τ} {step : τ → α → Noted ω (τ × σ)}
    {run : σ → Noted ω (Move ν σ κ)} {outer : p.State × τ} {count : Nat}
    {effects : List (Effect ω)} {shown : Option κ} :
    Joins M (Threads M p step) run outer count effects shown ↔
      ∃ values r, Exposes M (p.flatScan start step run).step (outer, none) count effects values r ∧
        r.map Prod.fst = shown := by
  have same : Threads M p step = Comes M (p.scanFilter start fun carried value => do
      let (next, output) ← step carried value
      pure (next, some output)).step := by
    funext state effects r
    exact propext threads_iff
  rw [same]
  exact joins_iff

end FlatScan

section AppendWith
variable {store store' : Store ω ν} {s front : Sequence ν} {tail : Noted ω (Sequence ν)}
  {cells : List (Cell ν)} {count fuel : Nat}

theorem shareable_reading (has : store.Has s) (has' : store.Has tail.value) :
    Shareable store (ofSequence s) tail :=
  ⟨grounded_reading has, has'⟩

theorem expose_append_inside {last : Cell ν} (ready : store.Ready M) (has : store.Has s)
    (has' : store.Has tail.value) (walks : M.Walks s cells (some last)) :
    ∃ front store' other,
      Store.Settles (fun fuel => (s.appendWith tail).expose cells.length fuel store)
        (front, store') ∧
      front.first? = some last.value ∧
      store.Undergoes (looking cells) other ∧ store'.SameBelow store.spines.size other := by
  obtain ⟨before, behind, state, runs, comes, looks⟩ := runs_reading (ω := ω) walks
  obtain ⟨front, store', N, settles, stands, -, -, grown⟩ :=
    Store.share_runs ready (shareable_reading has has') runs comes
  obtain ⟨other, undergoes, same⟩ := grown.undergone
  rw [← looks, readingAt, Option.map_some, Store.closing, List.append_nil] at undergoes
  rw [List.length_map] at settles
  exact ⟨front, store', other, settles, by rw [stands]; rfl, undergoes, same⟩

theorem expose_append_past (ready : store.Ready M) (has : store.Has s) (has' : store.Has tail.value)
    (walks : M.Walks s cells none) :
    ∃ store' other,
      Store.Settles (fun fuel => (s.appendWith tail).expose cells.length fuel store)
        (tail.value, store') ∧
      store.Undergoes (looking cells ++ noting tail.notes) other ∧
      store'.SameBelow store.spines.size other := by
  obtain ⟨before, behind, state, runs, comes, looks⟩ := runs_reading (ω := ω) walks
  obtain ⟨front, store', N, settles, rfl, -, -, grown⟩ :=
    Store.share_runs ready (shareable_reading has has') runs comes
  obtain ⟨other, undergoes, same⟩ := grown.undergone
  rw [← looks] at undergoes
  rw [List.length_map] at settles
  exact ⟨store', other, settles, undergoes, same⟩

theorem walks_of_expose_append (ready : store.Ready M) (has : store.Has s)
    (has' : store.Has tail.value)
    (result : (s.appendWith tail).expose count fuel store = some (front, store')) :
    (∃ cells last, M.Walks s cells (some last) ∧ cells.length = count) ∨
      ∃ cells, M.Walks s cells none ∧ cells.length ≤ count := by
  obtain ⟨effects, values, r, before, behind, state, runs, comes, -, places⟩ :=
    exposes_of_expose ready (shareable_reading has has') result
  obtain ⟨cells, t, walks, -, rfl, rfl⟩ := walks_of_runs runs comes
  rw [List.length_map] at places
  cases t with
  | none => exact Or.inr ⟨cells, walks, by omega⟩
  | some last =>
    rcases places with same | ⟨-, ⟨⟩⟩
    exact Or.inl ⟨cells, last, walks, same⟩

end AppendWith

/-- Concatenation on demand. Flattening shows the concatenation of the runs, and an element is exposed
by what passes the runs before its own, starts its own and gets up to the element in it, and by
nothing else. A sequence with another one behind it shows its own elements without the other one,
which is handed over where the first element behind them is asked for. A scan in which the elements
start runs takes its step on an element only when the runs of the earlier ones have been passed. -/
theorem concatenates_on_demand {store : Store ω ν} (ready : store.Ready M) :
    (∀ (p : Producer ω ν σ) (run : σ → Noted ω (Move ν σ ν)),
      Grounded store.spines.size (p.flatten run).step store.size (p.flatten run).state →
      (p.flatten run).share.Shows store (Joins M (Comes M p.step) run p.state)) ∧
    (∀ (s : Sequence ν) (tail : Noted ω (Sequence ν)), store.Has s → store.Has tail.value →
      (∀ cells last, M.Walks s cells (some last) → ∃ front store' other,
        Store.Settles (fun fuel => (s.appendWith tail).expose cells.length fuel store) (front, store') ∧
        front.first? = some last.value ∧
        store.Undergoes (looking cells) other ∧ store'.SameBelow store.spines.size other) ∧
      (∀ cells, M.Walks s cells none → ∃ store' other,
        Store.Settles (fun fuel => (s.appendWith tail).expose cells.length fuel store)
          (tail.value, store') ∧
        store.Undergoes (looking cells ++ noting tail.notes) other ∧
        store'.SameBelow store.spines.size other) ∧
      ∀ count fuel front store', (s.appendWith tail).expose count fuel store = some (front, store') →
        (∃ cells last, M.Walks s cells (some last) ∧ cells.length = count) ∨
          ∃ cells, M.Walks s cells none ∧ cells.length ≤ count) ∧
    ∀ (p : Producer ω ν α) (start : τ) (step : τ → α → Noted ω (τ × σ))
      (run : σ → Noted ω (Move ν σ ν)),
      Grounded store.spines.size (p.flatScan start step run).step store.size
        (p.flatScan start step run).state →
      (p.flatScan start step run).share.Shows store (Joins M (Threads M p step) run (p.state, start)) := by
  refine ⟨fun p run grounded => ?_, fun s tail has has' => ⟨?_, ?_, ?_⟩,
    fun p start step run grounded => ?_⟩
  · exact shows_of_exposes ready grounded fun _ _ _ => joins_iff
  · exact fun cells last walks => expose_append_inside ready has has' walks
  · exact fun cells walks => expose_append_past ready has has' walks
  · exact fun count fuel front store' result => walks_of_expose_append ready has has' result
  · exact shows_of_exposes ready grounded fun _ _ _ => joins_threads

def copySum (sum n : Nat) : Noted Nat (Nat × List Nat) := ⟨[n], sum + n, List.replicate n sum⟩

/-- Of 2, 0 and 1 the second copy of the first run does not touch the 0; the one of the third run
passes the empty run. The sequence behind 2, 0 and 1 is handed over behind the 1. -/
theorem concatenates_on_demand_copies :
    ∃ (s : Sequence Nat) (store : Store Nat Nat) (M : Meaning Nat) (first second third : Cell Nat),
      Store.Settles (fun fuel => (ofList [2, 0, 1]).share fuel .empty) (s, store) ∧
      store.Ready M ∧ M.Walks s [first, second, third] none ∧
      (∃ front store' other,
        Store.Settles (fun fuel =>
          ((ofSequence s).flatScan 7 copySum playList).share.expose 1 fuel store) (front, store') ∧
        front.first? = some 7 ∧
        store.Undergoes [.note 2] other ∧ store'.SameBelow store.spines.size other) ∧
      (∃ front store' other,
        Store.Settles (fun fuel =>
          ((ofSequence s).flatScan 7 copySum playList).share.expose 2 fuel store) (front, store') ∧
        front.first? = some 9 ∧
        store.Undergoes [.note 2, .look first.node, .note 0, .look second.node, .note 1] other ∧
        store'.SameBelow store.spines.size other) ∧
      ∃ store' other,
        Store.Settles (fun fuel => (s.appendWith ⟨[5], none⟩).expose 3 fuel store) (none, store') ∧
        store.Undergoes [.look first.node, .look second.node, .look third.node, .note 5] other ∧
        store'.SameBelow store.spines.size other := by
  obtain ⟨s, store, M, cells, settles, ready, has, walks, values⟩ :=
    Store.exists_shared (ω := Nat) [2, 0, 1]
  obtain ⟨⟨_, first⟩, ⟨_, second⟩, ⟨_, third⟩, rfl⟩ := List.length_eq_three.mp
    (by rw [← List.length_map (f := Cell.value), values]; rfl)
  cases values
  obtain ⟨-, appends, scans⟩ :=
    concatenates_on_demand (σ := List Nat) (τ := Nat) (α := Nat) ready
  have past := (appends s ⟨[5], none⟩ has Sequence.within_none).2.1 _ walks
  have grounded : Grounded store.spines.size
      ((ofSequence s).flatScan 7 copySum (playList (ω := Nat) (ν := Nat))).step store.size
      ((ofSequence s).flatScan 7 copySum (playList (ω := Nat) (ν := Nat))).state :=
    grounded_flatten (fun sizes t => Grounded store.spines.size _ sizes t)
      (grounded_scanFilter (grounded_reading has)) (fun _ _ inside => inside.keeps)
      fun _ _ _ _ _ _ => grounded_playList
  have shows := scans (ofSequence s) 7 copySum playList grounded
  -- the three runs, as the step starts them one after the other
  have runs : ∃ second', M.after first = some second' ∧ ∃ third', M.after second = some third' ∧
      s = some ⟨2, first⟩ ∧ second' = some ⟨0, second⟩ ∧ third' = some ⟨1, third⟩ := by
    cases walks with
    | cons follows tail =>
      cases tail with
      | cons follows' tail =>
        cases tail with
        | cons => exact ⟨_, follows, _, follows', rfl, rfl, rfl⟩
  obtain ⟨_, follows, _, follows', rfl, rfl, rfl⟩ := runs
  let p : Producer Nat Nat Nat := ofSequence (some ⟨2, first⟩)
  have here : Comes M p.step (.here (some ⟨2, first⟩)) [] (some (2, .after first)) :=
    comes_reading_here.mpr ⟨rfl, rfl⟩
  have next : Comes M p.step (.after first) [.look first] (some (0, .after second)) :=
    comes_reading_after.mpr ⟨_, follows, rfl, rfl⟩
  have last : Comes M p.step (.after second) [.look second] (some (1, .after third)) :=
    comes_reading_after.mpr ⟨_, follows', rfl, rfl⟩
  have two : Threads M p copySum (.here (some ⟨2, first⟩), 7) [.note 2]
      (some ([7, 7], (.after first, 9))) := .start here
  have zero : Threads M p copySum (.after first, 9) [.look first, .note 0]
      (some ([], (.after second, 9))) := .start next
  have one : Threads M p copySum (.after second, 9) [.look second, .note 1]
      (some ([9], (.after third, 10))) := .start last
  refine ⟨_, store, M, ⟨2, first⟩, ⟨0, second⟩, ⟨1, third⟩, settles, ready, walks, ?_, ?_, past⟩
  · exact (shows 1).2 _ _ (.within .nil two (exposes_playList [7] 7 []) rfl)
  · exact (shows 2).2 _ _ (.within (.cons two (ends_playList _) (.cons zero (ends_playList _) .nil))
      one (exposes_playList [] 9 []) rfl)

end Producer

end DemandLex
