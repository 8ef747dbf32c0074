import DemandLex.Proofs.Program.Names
import DemandLex.Proofs.Sequence.Steady
import DemandLex.Proofs.StepFunction.Pairs

/-! Programs that make lazy step functions from each other, each used as often as wanted, keep all of
them well formed. -/

namespace DemandLex

namespace StepStream
variable {ω E T U : Type} {compare : E → E → Ordering} {equal : T → T → Noted ω Bool}

theorem steady_ofStepFunction {f : StepFunction E T} :
    (ofStepFunction f : Lazy ω (Breakpoint E T) _).Steady :=
  Producer.steady_share.bind fun _ => Lazy.steady_pure

theorem steady_merge {reduce : T → U → Noted ω T} {a : StepStream E T} {first : U}
    {q : Producer ω (Breakpoint E T) (Breakpoint E U)} :
    (merge compare equal reduce a first q).Steady :=
  Lazy.steady_noted.bind fun _ => Producer.steady_share.bind fun _ => Lazy.steady_pure

theorem steady_add {s : StepStream E T} {interval : Interval E T} :
    (s.add compare equal interval).Steady := by
  rw [add]
  split
  · exact steady_merge
  · exact Lazy.steady_pure

theorem steady_map {s : StepStream E T} {change : T → Noted ω T} : (s.map equal change).Steady :=
  Lazy.steady_noted.bind fun _ => Producer.steady_share.bind fun _ => Lazy.steady_pure

end StepStream

namespace Program

section History
variable {ω E T : Type} {compare : E → E → Ordering} {board board' : Board E T}
  {store store' : Store ω (Breakpoint E T)} {M : Meaning (Breakpoint E T)}

/-- The equality that a step function is built with, given those that the others were built with.
A constant is built with any; an empty interval and a copy build nothing. -/
inductive Makes (compare : E → E → Ordering) (built : Names (T → T → Bool)) :
    MakeStream ω E T → (T → T → Bool) → Prop
  | constant (value : T) (equal : T → T → Bool) : Makes compare built (.constant value) equal
  | ofPairs (equal : T → T → Noted ω Bool) (first : T) (pairs : List (E × T)) :
      Makes compare built (.ofPairs ⟨compare, equal⟩ first pairs) (silent equal)
  | merge (equal : T → T → Noted ω Bool) (reduce : T → T → Noted ω T) (source other : String) :
      Makes compare built (.merge ⟨compare, equal⟩ source other reduce) (silent equal)
  | map (equal : T → T → Noted ω Bool) (change : T → Noted ω T) (source : String) :
      Makes compare built (.map ⟨compare, equal⟩ source change) (silent equal)
  | add (equal : T → T → Noted ω Bool) (interval : Interval E T) (source : String)
      (nonempty : compare interval.min interval.max = .lt) :
      Makes compare built (.add ⟨compare, equal⟩ source interval) (silent equal)
  | addEmpty (equal : T → T → Noted ω Bool) (interval : Interval E T) {source : String}
      {before : T → T → Bool} (empty : compare interval.min interval.max ≠ .lt)
      (found : built.lookup source = some before) :
      Makes compare built (.add ⟨compare, equal⟩ source interval) before
  | copy {source : String} {before : T → T → Bool} (found : built.lookup source = some before) :
      Makes compare built (.copy source) before

/-- What a program comes to that makes step functions with one comparison. Between its steps any rest
may be asked for. -/
inductive Reached (compare : E → E → Ordering) :
    Board E T → Names (T → T → Bool) → Store ω (Breakpoint E T) → Prop
  | start : Reached compare .empty [] .empty
  | stored {built : Names (T → T → Bool)} {board board' : Board E T}
      {store store' : Store ω (Breakpoint E T)} {rounds : Nat} {how : MakeStream ω E T}
      {equal : T → T → Bool} (name : String) (before : Reached compare board built store)
      (makes : Makes compare built how equal)
      (acted : Board.act rounds (.make name how) board store = .ok (.stored, board', store')) :
      Reached compare board' (built.insert name equal) store'
  | refused {built : Names (T → T → Bool)} {board board' : Board E T}
      {store store' : Store ω (Breakpoint E T)} {rounds : Nat} {how : MakeStream ω E T}
      {equal : T → T → Bool} {error : UnorderedEdges} (name : String)
      (before : Reached compare board built store) (makes : Makes compare built how equal)
      (acted : Board.act rounds (.make name how) board store =
        .ok (.unordered error, board', store')) :
      Reached compare board' built store'
  | asked {built : Names (T → T → Bool)} {board : Board E T}
      {store store' : Store ω (Breakpoint E T)} {fuel : Nat} {cell : Cell (Breakpoint E T)}
      {rest : Sequence (Breakpoint E T)} (before : Reached compare board built store)
      (has : store.Has (some cell))
      (forced : Sequence.rest (some cell) fuel store = some (rest, store')) :
      Reached compare board built store'

structure Formed (compare : E → E → Ordering) (board : Board E T) (built : Names (T → T → Bool))
    (store : Store ω (Breakpoint E T)) (M : Meaning (Breakpoint E T)) : Prop where
  ready : store.Ready M
  formed (name : String) (s : StepStream E T) : board.steps.lookup name = some s →
    ∃ equal f, built.lookup name = some equal ∧ StepFunction.WellFormed compare equal f ∧
      s.Shows f store M

theorem Formed.later {built : Names (T → T → Bool)} {M' : Meaning (Breakpoint E T)}
    (formed : Formed compare board built store M) (leaves : store.Leaves M store' M') :
    Formed compare board built store' M' := by
  refine ⟨leaves.ready, ?_⟩
  intro name s found
  obtain ⟨equal, f, known, wellFormed, shows⟩ := formed.formed name s found
  exact ⟨equal, f, known, wellFormed, shows.later formed.ready leaves⟩

theorem Formed.insert {built : Names (T → T → Bool)} {equal : T → T → Bool} {s : StepStream E T}
    {f : StepFunction E T} (formed : Formed compare board built store M) (name : String)
    (wellFormed : f.WellFormed compare equal) (shows : s.Shows f store M) :
    Formed compare { board with steps := board.steps.insert name s } (built.insert name equal) store
      M := by
  refine ⟨formed.ready, ?_⟩
  intro other t found
  rw [Names.lookup_insert] at found ⊢
  by_cases same : other = name
  · rw [if_pos same] at found ⊢
    cases found
    exact ⟨equal, f, rfl, wellFormed, shows⟩
  · rw [if_neg same] at found ⊢
    exact formed.formed other t found

section Make
variable {built : Names (T → T → Bool)} {how : MakeStream ω E T} {equal : T → T → Bool}
  {x : Lazy ω (Breakpoint E T) (Except UnorderedEdges (StepStream E T))}

def Makings (compare : E → E → Ordering) (equal : T → T → Bool)
    (r : Except UnorderedEdges (StepStream E T)) (store : Store ω (Breakpoint E T))
    (M : Meaning (Breakpoint E T)) : Prop :=
  ∀ s, r = .ok s → ∃ f, StepFunction.WellFormed compare equal f ∧ s.Shows f store M

theorem makings_ok {s : StepStream E T} {f : StepFunction E T}
    (wellFormed : f.WellFormed compare equal) (shows : s.Shows f store M) :
    Makings compare equal (.ok s) store M := by
  intro s' same
  cases same
  exact ⟨f, wellFormed, shows⟩

private theorem returns_makings {y : Lazy ω (Breakpoint E T) (StepStream E T)}
    {f : StepFunction E T} (wellFormed : f.WellFormed compare equal)
    (returns : y.Returns store M fun s store' M' => s.Shows f store' M') :
    (Except.ok <$> y).Returns store M (Makings compare equal) := by
  apply returns.map.mono
  intro r store' M' leaves found
  obtain ⟨s, rfl, shows⟩ := found
  exact makings_ok wellFormed shows

/-- Making a step function comes back, with a well-formed one or with the reason why there is none. -/
theorem Formed.returns_make [Std.TransCmp compare] (formed : Formed compare board built store M)
    (makes : Makes compare built how equal) (made : board.make how = .ok x) :
    x.Returns store M (Makings compare equal) := by
  have ready := formed.ready
  cases makes with
  | constant value equal =>
    cases made
    exact Lazy.returns_pure ready
      (makings_ok StepFunction.wellFormed_constant StepStream.shows_constant)
  | ofPairs equal first pairs =>
    apply (StepFunction.returns_ofPairs ready made).mono
    intro result store' M' leaves came
    rcases came with ⟨e, rfl, -⟩ | ⟨s, f, rfl, checked, shows⟩
    · exact fun s same => nomatch same
    · exact makings_ok (StepFunction.wellFormed_ofPairs checked) shows
  | merge equal reduce source other =>
    obtain ⟨s, found, made⟩ := Names.find_eq_ok.mp made
    obtain ⟨t, found', made⟩ := Names.find_eq_ok.mp made
    cases made
    obtain ⟨_, f, -, left, leftShows⟩ := formed.formed source s found
    obtain ⟨_, g, -, right, rightShows⟩ := formed.formed other t found'
    exact returns_makings (StepFunction.wellFormed_merge left.increasing right.increasing)
      (StepStream.returns_mergeWith ready leftShows rightShows)
  | map equal change source =>
    obtain ⟨s, found, made⟩ := Names.find_eq_ok.mp made
    cases made
    obtain ⟨_, f, -, wellFormed, shows⟩ := formed.formed source s found
    exact returns_makings (StepFunction.wellFormed_map wellFormed.increasing)
      (StepStream.returns_map ready shows)
  | add equal interval source nonempty =>
    obtain ⟨s, found, made⟩ := Names.find_eq_ok.mp made
    cases made
    obtain ⟨_, f, -, wellFormed, shows⟩ := formed.formed source s found
    exact returns_makings (StepFunction.wellFormed_add nonempty wellFormed.increasing)
      (StepStream.returns_add ready shows)
  | addEmpty equal' interval empty known =>
    obtain ⟨s, found, made⟩ := Names.find_eq_ok.mp made
    cases made
    obtain ⟨_, f, known', wellFormed, shows⟩ := formed.formed _ s found
    cases known.symm.trans known'
    refine returns_makings wellFormed ((StepStream.returns_add ready shows).mono ?_)
    intro t store' M' leaves shows'
    rwa [StepFunction.add_empty empty] at shows'
  | copy known =>
    obtain ⟨s, found, made⟩ := Names.find_eq_ok.mp made
    cases made
    obtain ⟨_, f, known', wellFormed, shows⟩ := formed.formed _ s found
    cases known.symm.trans known'
    exact Lazy.returns_pure ready (makings_ok wellFormed shows)

theorem steady_make (makes : Makes compare built how equal) (made : board.make how = .ok x) :
    x.Steady := by
  cases makes with
  | constant value equal =>
    cases made
    exact Lazy.steady_pure
  | ofPairs equal first pairs =>
    cases made
    apply Lazy.steady_noted.bind
    intro checked
    cases checked with
    | ok f => exact StepStream.steady_ofStepFunction.map
    | error e => exact Lazy.steady_pure
  | merge equal reduce source other =>
    obtain ⟨s, -, made⟩ := Names.find_eq_ok.mp made
    obtain ⟨t, -, made⟩ := Names.find_eq_ok.mp made
    cases made
    exact StepStream.steady_merge.map
  | map equal change source =>
    obtain ⟨s, -, made⟩ := Names.find_eq_ok.mp made
    cases made
    exact StepStream.steady_map.map
  | add equal interval | addEmpty equal interval =>
    obtain ⟨s, -, made⟩ := Names.find_eq_ok.mp made
    cases made
    exact StepStream.steady_add.map
  | copy =>
    obtain ⟨s, -, made⟩ := Names.find_eq_ok.mp made
    cases made
    exact Lazy.steady_pure

theorem Formed.act_make [Std.TransCmp compare] {rounds : Nat} {name : String} {answer : BoardAnswer E T}
    (formed : Formed compare board built store M) (makes : Makes compare built how equal)
    (acted : Board.act rounds (.make name how) board store = .ok (answer, board', store')) :
    ∃ M', Formed compare board built store' M' ∧
      ((∃ error, answer = .unordered error ∧ board' = board) ∨
        answer = .stored ∧ Formed compare board' (built.insert name equal) store' M') := by
  simp only [Board.act] at acted
  cases made : board.make how with
  | error failure => simp [made] at acted
  | ok x =>
    simp only [made] at acted
    cases came : x rounds store with
    | none => simp [force, came] at acted
    | some result =>
      obtain ⟨r, last⟩ := result
      obtain ⟨M', leaves, makings⟩ :=
        (formed.returns_make makes made).of_eq_some (steady_make makes made) came
      simp only [force, came] at acted
      cases r with
      | ok s =>
        cases acted
        obtain ⟨f, wellFormed, shows⟩ := makings s rfl
        have kept := formed.later leaves
        exact ⟨M', kept, Or.inr ⟨rfl, kept.insert name wellFormed shows⟩⟩
      | error e =>
        cases acted
        exact ⟨M', formed.later leaves, Or.inl ⟨e, rfl, rfl⟩⟩

end Make

theorem formed_of_reached [Std.TransCmp compare] {built : Names (T → T → Bool)}
    (reached : Reached compare board built store) : ∃ M, Formed compare board built store M := by
  induction reached with
  | start => exact ⟨_, Store.ready_empty, fun name s found => nomatch found⟩
  | stored name before makes acted ih =>
    obtain ⟨M, formed⟩ := ih
    obtain ⟨M', -, made⟩ := formed.act_make makes acted
    rcases made with ⟨error, answered, -⟩ | ⟨-, formed'⟩
    · cases answered
    · exact ⟨M', formed'⟩
  | refused name before makes acted ih =>
    obtain ⟨M, formed⟩ := ih
    obtain ⟨M', formed', made⟩ := formed.act_make makes acted
    rcases made with ⟨error, -, rfl⟩ | ⟨answered, -⟩
    · exact ⟨M', formed'⟩
    · cases answered
  | asked before has forced ih =>
    obtain ⟨M, formed⟩ := ih
    exact ⟨M, formed.later (Sequence.after_of_rest formed.ready has forced).1⟩

end History

end Program

namespace StepFunction

/-- Merges of streams, whether these end or not, show increasing edges that come from the streams
and no value that repeats the one in force: in what a merge of any two producers has given, in all
that a stored merge begins with, and in all that is read of it. So every history of operations leaves
well-formed step functions, and so does every program that makes streams from each other. -/
theorem breakpoints_wellFormed {E : Type} (compare : E → E → Ordering) [Std.TransCmp compare] :
    (∀ (ω ν A B R : Type) (M : Meaning ν) (equal : R → R → Noted ω Bool)
      (reduce : A → B → Noted ω R) (a : A) (b : B) (p : Producer ω ν (Breakpoint E A))
      (q : Producer ω ν (Breakpoint E B)),
      (∀ xs last, Producer.Starts M p.step p.state xs last → Increasing compare xs) →
      (∀ ys last, Producer.Starts M q.step q.state ys last → Increasing compare ys) →
      let merged := (p.overlay compare reduce a b q).minimise equal (silent reduce a b)
      ∀ zs last, Producer.Starts M merged.step merged.state zs last →
        Combines compare (silent equal) (silent reduce a b)
          (fun xs => ∃ last, Producer.Starts M p.step p.state xs last)
          (fun ys => ∃ last, Producer.Starts M q.step q.state ys last) zs) ∧
    (∀ (ω T : Type) (equal : T → T → Noted ω Bool) (reduce : T → T → Noted ω T)
      (a b s : StepStream E T) (store store' : Store ω (Breakpoint E T))
      (M : Meaning (Breakpoint E T)) (fuel : Nat), store.Ready M → store.Has a.rest →
      store.Has b.rest → (∀ xs, M.Begins a.rest xs → Increasing compare xs) →
      (∀ ys, M.Begins b.rest ys → Increasing compare ys) →
      StepStream.mergeWith compare equal reduce a b fuel store = some (s, store') →
      ∃ M', store.Leaves M store' M' ∧ store'.Has s.rest ∧
        (∀ zs, M'.Begins s.rest zs →
          Combines compare (silent equal) s.first (M.Begins a.rest) (M.Begins b.rest) zs) ∧
        ∀ count fuel zs store'', s.rest.iterTake count fuel store' = some (zs, store'') →
          Combines compare (silent equal) s.first (M.Begins a.rest) (M.Begins b.rest) zs) ∧
    (∀ (T : Type) (equal : T → T → Bool) (f : StepFunction E T), Built compare equal f →
      WellFormed compare equal f) ∧
    ∀ (ω T : Type) (board : Program.Board E T) (built : Program.Names (T → T → Bool))
      (store : Store ω (Breakpoint E T)), Program.Reached compare board built store →
      ∃ M, Program.Formed compare board built store M := by
  refine ⟨?_, ?_, fun T equal f built => wellFormed_of_built built,
    fun ω T board built store reached => Program.formed_of_reached reached⟩
  · intro ω ν A B R M equal reduce a b p q leftIncreasing rightIncreasing merged zs last started
    obtain ⟨xs, ys, left, right, rfl⟩ := Producer.starts_merged started
    refine combines_minimise left right ?_ ?_
    · exact fun xs ⟨last, starts⟩ => leftIncreasing xs last starts
    · exact fun ys ⟨last, starts⟩ => rightIncreasing ys last starts
  · intro ω T equal reduce a b s store store' M fuel ready hasLeft hasRight leftIncreasing
      rightIncreasing result
    obtain ⟨M', leaves, has, -, begins⟩ :=
      StepStream.begins_merge ready hasLeft (Producer.grounded_reading hasRight) result
    have combines (zs : List (Breakpoint E T)) (shown : M'.Begins s.rest zs) :
        Combines compare (silent equal) s.first (M.Begins a.rest) (M.Begins b.rest) zs := by
      obtain ⟨xs, ys, left, ⟨last, started⟩, rfl⟩ := begins zs shown
      exact combines_minimise left (Producer.begins_of_starts_reading started) leftIncreasing
        rightIncreasing
    refine ⟨M', leaves, has, combines, ?_⟩
    intro count fuel zs store'' read
    exact combines zs (Sequence.begins_of_iterTake leaves.ready has read)

section Endless
variable {ω ν : Type} {M : Meaning ν}

/-- A breakpoint at every number from one on, with a new value at every second one. -/
def halves (ω ν : Type) : Producer ω ν (Breakpoint Nat Nat) :=
  .unfold 1 fun n => pure (some (⟨n, n / 2⟩, n + 1))

theorem increasing_halves {n last : Nat} {xs : List (Breakpoint Nat Nat)}
    (starts : Producer.Starts M (halves ω ν).step n xs last) :
    Increasing compare xs ∧ ∀ x ∈ xs, n ≤ x.edge := by
  induction xs generalizing n with
  | nil => exact ⟨increasing_nil, by simp⟩
  | cons x xs ih =>
    cases starts with
    | cons first later =>
      cases (Producer.reaches_yield rfl).mp first
      obtain ⟨increasing, behind⟩ := ih later
      refine ⟨increasing_cons.mpr ⟨?_, increasing⟩, ?_⟩
      · exact fun c member => Nat.compare_eq_lt.mpr (behind c member)
      · intro c member
        rcases List.mem_cons.mp member with rfl | member
        · exact Nat.le_refl n
        · exact Nat.le_of_succ_le (behind c member)

/-- A stream without an end is merged with a constant, and the merge is read. -/
def readMerge (count : Nat) : Lazy String (Breakpoint Nat Nat)
    (StepStream Nat Nat × StepStream Nat Nat × List (Breakpoint Nat Nat)) := do
  let rest ← (halves String (Breakpoint Nat Nat)).share
  let s ← StepStream.mergeWith compare (fun x y => pure (x == y)) (fun x y => pure (x + y)) ⟨0, rest⟩
    (.constant 1)
  let read ← s.rest.iterTake count
  pure (⟨0, rest⟩, s, read)

theorem readMerge_two :
    ∃ (a s : StepStream Nat Nat) (store store' last : Store String (Breakpoint Nat Nat))
      (M : Meaning (Breakpoint Nat Nat)) (fuel : Nat), store.Ready M ∧ store.Has a.rest ∧
      (∀ xs, M.Begins a.rest xs → Increasing compare xs) ∧
      StepStream.mergeWith compare (fun x y => pure (x == y)) (fun x y => pure (x + y)) a
        (.constant 1) fuel store = some (s, store') ∧
      s.rest.iterTake 2 fuel store' = some ([⟨2, 2⟩, ⟨4, 3⟩], last) := by
  have run : (readMerge 2 30 Store.empty).map (fun r => r.1.2.2) = some [⟨2, 2⟩, ⟨4, 3⟩] := by
    decide +kernel
  obtain ⟨⟨⟨a, s, zs⟩, last⟩, ran, rfl⟩ := Option.map_eq_some_iff.mp run
  generalize 30 = fuel at ran
  rw [readMerge] at ran
  obtain ⟨rest, store, made, ran⟩ := Lazy.bind_eq_some.mp ran
  obtain ⟨s', store', merged, ran⟩ := Lazy.bind_eq_some.mp ran
  obtain ⟨zs', last', read, same⟩ := Lazy.bind_eq_some.mp ran
  cases same
  have shared := Producer.shared_of_eq_some Store.ready_empty (Producer.shareable_of_grounded
    (Producer.grounded_of_alone Producer.alone_unfold)) made
  refine ⟨⟨0, rest⟩, s, store, store', last, _, fuel, shared.leaves.ready, shared.has, ?_, merged, read⟩
  intro xs begins
  obtain ⟨last, starts⟩ := shared.begins xs rfl begins
  exact (increasing_halves starts).1

def zero : Program.Board Nat Nat := ⟨[("a", .constant 0)], []⟩

def overwrite : Program.MakeStream String Nat Nat :=
  .add ⟨compare, fun x y => pure (x == y)⟩ "a" ⟨2, 5, 7⟩

theorem reached_overwrite :
    ∃ (board : Program.Board Nat Nat) (store : Store String (Breakpoint Nat Nat)),
      board.steps.map Prod.fst = ["b", "a"] ∧
      Program.Reached compare board [("b", (· == ·)), ("a", (· == ·))] store := by
  have begun : Program.Board.act 0 (.make "a" (.constant 0)) .empty Store.empty =
      .ok (.stored, zero, (.empty : Store String (Breakpoint Nat Nat))) := rfl
  have ran : ((Program.Board.act 30 (.make "b" overwrite) zero .empty).toOption.map fun r =>
      (r.1 matches .stored, r.2.1.steps.map Prod.fst)) = some (true, ["b", "a"]) := by
    decide +kernel
  obtain ⟨⟨answer, board, store⟩, acted, shown⟩ := Option.map_eq_some_iff.mp ran
  cases result : Program.Board.act 30 (.make "b" overwrite) zero .empty with
  | error failure => simp [result, Except.toOption] at acted
  | ok r =>
    simp only [result, Except.toOption, Option.some.injEq] at acted
    obtain rfl := acted
    obtain ⟨answered, names⟩ := Prod.mk.inj shown
    cases answer with
    | stored =>
      have first : Program.Reached compare zero [("a", (· == ·))] Store.empty :=
        .stored "a" .start (.constant 0 (· == ·)) begun
      exact ⟨board, store, names, .stored "b" first (.add _ _ _ (by decide)) result⟩
    | _ => cases answered

theorem breakpoints_wellFormed_endless :
    (let source := halves String Nat
      let merged := (source.overlay compare (fun x y => pure (x * y)) 5 6 source).minimise
        (fun x y => pure (x == y)) 30
      let shown xs := ∃ last, Producer.Starts (fun _ => none) source.step source.state xs last
      ∀ zs last, Producer.Starts (fun _ => none) merged.step merged.state zs last →
        Combines compare (· == ·) 30 shown shown zs) ∧
    (∃ (a s : StepStream Nat Nat) (store store' : Store String (Breakpoint Nat Nat))
      (M : Meaning (Breakpoint Nat Nat)) (fuel : Nat), store.Ready M ∧ store.Has a.rest ∧
      (∀ xs, M.Begins a.rest xs → Increasing compare xs) ∧
      StepStream.mergeWith compare (fun x y => pure (x == y)) (fun x y => pure (x + y)) a
        (.constant 1) fuel store = some (s, store') ∧
      Combines compare (· == ·) s.first (M.Begins a.rest) (M.Begins none) [⟨2, 2⟩, ⟨4, 3⟩]) ∧
    WellFormed compare (· == ·)
      (((constant 0).add ⟨compare, (· == ·)⟩ ⟨2, 5, 7⟩).map (· == ·) (· % 7) :
        StepFunction Nat Nat) ∧
    ∃ (board : Program.Board Nat Nat) (store : Store String (Breakpoint Nat Nat))
      (M : Meaning (Breakpoint Nat Nat)), board.steps.map Prod.fst = ["b", "a"] ∧
      Program.Formed compare board [("b", (· == ·)), ("a", (· == ·))] store M := by
  obtain ⟨produced, stored, built, run⟩ := breakpoints_wellFormed (E := Nat) compare
  refine ⟨?_, ?_, ?_, ?_⟩
  · intro source merged shown
    have increasing (xs : List (Breakpoint Nat Nat)) (last : source.State)
        (starts : Producer.Starts (fun _ => none) source.step source.state xs last) :
        Increasing compare xs := (increasing_halves starts).1
    exact produced String Nat Nat Nat Nat (fun _ => none) _ _ 5 6 source source increasing increasing
  · obtain ⟨a, s, store, store', last, M, fuel, ready, has, increasing, merged, read⟩ := readMerge_two
    have constant (ys : List (Breakpoint Nat Nat)) (begins : M.Begins none ys) :
        Increasing compare ys := by
      cases begins
      exact increasing_nil
    obtain ⟨M', leaves, has', -, reads⟩ := stored String Nat _ _ a (.constant 1) s store store' M
      fuel ready has Sequence.within_none increasing constant merged
    exact ⟨a, s, store, store', M, fuel, ready, has, increasing, merged, reads 2 fuel _ _ read⟩
  · exact built Nat (· == ·) _ (.map _ _ (.add _ _ (by decide) (.constant (· == ·) 0)))
  · obtain ⟨board, store, names, reached⟩ := reached_overwrite
    obtain ⟨M, formed⟩ := run String Nat board _ store reached
    exact ⟨board, store, M, names, formed⟩

end Endless

end StepFunction

end DemandLex
