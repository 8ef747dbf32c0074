import DemandLex.Proofs.Sequence.Steady

/-! Computations that ask about a sequence. Each comes back as soon as enough is known of the list that
the sequence stands for, never without, and with what the list function says. -/

namespace DemandLex

variable {ω ν α β : Type}

/-- A computation answers what is known of a sequence, when enough is known. -/
structure Lazy.Answers (x : Lazy ω ν β) (s : Sequence ν) (answer : Listing ν → Option β)
    (store : Store ω ν) (M : Meaning ν) : Prop where
  came (fuel : Nat) (b : β) (store' : Store ω ν) : x fuel store = some (b, store') →
    (∃ M', store.Leaves M store' M') ∧ ∃ n, answer (M.shown n s) = some b
  comes (n : Nat) (b : β) : answer (M.shown n s) = some b →
    ∃ store', Store.Settles (fun fuel => x fuel store) (b, store')

namespace Sequence

variable {store : Store ω ν} {M : Meaning ν} {s : Sequence ν} {x : Lazy ω ν β}
  {answer : Listing ν → Option β}

theorem answers_map {f : β → α} (answers : x.Answers s answer store M) :
    (f <$> x).Answers s (fun l => (answer l).map f) store M where
  came fuel a store' result := by
    rw [map_eq_pure_bind] at result
    obtain ⟨b, store₁, came, same⟩ := Lazy.bind_eq_some.mp result
    cases same
    obtain ⟨leaves, n, known⟩ := answers.came fuel b store' came
    exact ⟨leaves, n, by rw [known]; rfl⟩
  comes n a known := by
    obtain ⟨b, known', rfl⟩ := Option.map_eq_some_iff.mp known
    obtain ⟨store', enough, settles⟩ := answers.comes n b known'
    refine ⟨store', enough, fun fuel more => ?_⟩
    rw [map_eq_pure_bind]
    exact Lazy.bind_eq_some.mpr ⟨b, store', settles fuel more, rfl⟩

theorem first?_shown {n : Nat} : (M.shown (n + 1) s).first? = some s.first? := by
  cases s with
  | none => rfl
  | some cell => simp [Meaning.shown, Listing.first?, Listing.isHeaded, Listing.cons, first?]

theorem answers_first (ready : store.Ready M) :
    (pure s.first? : Lazy ω ν (Option ν)).Answers s Listing.first? store M where
  came fuel b store' result := by
    cases result
    exact ⟨⟨M, .refl ready⟩, 1, first?_shown⟩
  comes n b known := by
    cases n with
    | zero => cases known
    | succ n =>
      cases first?_shown.symm.trans known
      exact ⟨store, 0, fun _ _ => rfl⟩

section Fold
variable {f : α → ν → Noted ω α} {start : α}

theorem steady_foldM : (s.foldM start f).Steady := by
  apply Lazy.Steady.iterate
  rintro ⟨reduced, _ | cell⟩
  · exact Lazy.steady_pure
  · exact Lazy.steady_noted.bind fun _ => steady_rest.bind fun _ => Lazy.steady_pure

theorem holds_of_foldM {fuel : Nat} {a : α} {store' : Store ω ν} (ready : store.Ready M)
    (has : store.Has s) (result : s.foldM start f fuel store = some (a, store')) :
    ∃ values, M.Holds s values := by
  refine Lazy.post_of_iterate (I := fun state store' => store'.Ready M ∧ store'.Has state.2 ∧
    ((∃ values, M.Holds state.2 values) → ∃ values, M.Holds s values))
    (P := fun _ _ => ∃ values, M.Holds s values) ?_ ⟨ready, has, id⟩ result
  rintro ⟨reduced, _ | cell⟩ store₁ r store₂ ⟨ready, has, back⟩ step
  · cases step
    exact back ⟨[], .nil⟩
  · obtain ⟨next, store₃, noted, step⟩ := Lazy.bind_eq_some.mp step
    cases noted
    obtain ⟨t, store₄, looked, same⟩ := Lazy.bind_eq_some.mp step
    cases same
    have logged := Lazy.leaves_log (f reduced cell.value).notes ready
    obtain ⟨leaves, has', follows⟩ := after_of_rest logged.ready (logged.has has) looked
    refine ⟨leaves.ready, has', fun ⟨values, holds⟩ => back ⟨_, .cons follows holds⟩⟩

theorem answers_foldM (f : α → ν → Noted ω α) (start : α) (ready : store.Ready M) (has : store.Has s) :
    (s.foldM start f).Answers s
      (fun l => l.all? fun values => values.foldl (fun a value => (f a value).value) start)
      store M where
  came fuel b store' result := by
    obtain ⟨values, holds⟩ := holds_of_foldM ready has result
    obtain ⟨M', leaves, rfl⟩ :=
      (returns_foldM ready ⟨has, holds⟩).of_eq_some steady_foldM result
    obtain ⟨n, known⟩ := Meaning.holds_iff.mp holds
    exact ⟨⟨M', leaves⟩, n, by rw [known]; rfl⟩
  comes n b known := by
    obtain ⟨whole, rfl⟩ := Listing.all?_eq_some.mp known
    have holds := Meaning.holds_iff.mpr ⟨n, whole⟩
    have folds : (s.foldM start f).Returns store M _ := returns_foldM ready ⟨has, holds⟩
    obtain ⟨b, store', M', settles, -, rfl⟩ := folds
    exact ⟨store', settles⟩

end Fold

section Consumers

theorem answers_toArray (ready : store.Ready M) (has : store.Has s) :
    (s.toArray : Lazy ω ν (Array ν)).Answers s (fun l => l.all? List.toArray) store M := by
  have folds := answers_foldM (fun items value => (pure (items.push value) : Noted ω (Array ν))) #[]
    ready has
  have pushes (values : List ν) : values.foldl (fun items value => items.push value) #[] =
      values.toArray := by simp
  simp only [Noted.value_pure, pushes] at folds
  exact folds

theorem answers_toList (ready : store.Ready M) (has : store.Has s) :
    (s.toList : Lazy ω ν (List ν)).Answers s (fun l => l.all? id) store M := by
  have lists := answers_map (f := Array.toList) (answers_toArray (ω := ω) ready has)
  rw [map_eq_pure_bind] at lists
  simp only [Listing.map_all?] at lists
  exact lists

theorem answers_size (ready : store.Ready M) (has : store.Has s) :
    (s.size : Lazy ω ν Nat).Answers s (fun l => l.all? List.length) store M := by
  have folds := answers_foldM (fun count _ => (pure (count + 1) : Noted ω Nat)) 0 ready has
  have counts (values : List ν) : values.foldl (fun count _ => count + 1) 0 = values.length := by
    simp
  simp only [Noted.value_pure, counts] at folds
  exact folds

theorem answers_last (ready : store.Ready M) (has : store.Has s) :
    (s.last? : Lazy ω ν (Option ν)).Answers s (fun l => l.all? List.getLast?) store M := by
  have folds := answers_foldM (fun _ value => (pure (some value) : Noted ω (Option ν))) none
    ready has
  have lasts (values : List ν) :
      values.foldl (fun _ value => some value) none = values.getLast? := by
    induction values using List.reverseRecOn with
    | nil => rfl
    | append_singleton values value ih => simp
  simp only [Noted.value_pure, lasts] at folds
  exact folds

end Consumers

section Front

theorem steady_visit (visit : α → ν → α × Bool) (step : α × Option Nat × Sequence ν) :
    Lazy.Steady (match step with
    | (state, left, s) =>
      match left, s with
      | some 0, _ => (pure (.inr state) : Lazy ω ν ((α × Option Nat × Sequence ν) ⊕ α))
      | _, none => pure (.inr state)
      | _, some cell => do
        let tail ← rest s
        let (next, more) := visit state cell.value
        pure (if more then .inl (next, left.map (· - 1), tail) else .inr next)) := by
  obtain ⟨state, _ | _ | left, _ | cell⟩ := step
  case none.some | some.succ.some => exact steady_rest.bind fun _ => Lazy.steady_pure
  all_goals exact Lazy.steady_pure

theorem steady_iterateWhile {count : Option Nat} {start : α} {visit : α → ν → α × Bool} :
    (s.iterateWhile count start visit : Lazy ω ν α).Steady :=
  Lazy.Steady.iterate (steady_visit visit)

/-- The rest behind the last element that an iterator hands out has come back. -/
theorem exists_take?_of_iterTake {count fuel : Nat} {items : List ν} {store' : Store ω ν}
    (ready : store.Ready M) (has : store.Has s)
    (result : s.iterTake count fuel store = some (items, store')) :
    ∃ n, ((M.shown n s).take? count).isSome = true := by
  obtain ⟨taken, store₁, visits, -⟩ := Lazy.bind_eq_some.mp result
  refine Lazy.post_of_iterate (I := fun (_, left, t) store' => store'.Ready M ∧ store'.Has t ∧
    ∃ k, left = some k ∧ ((∃ n, ((M.shown n t).take? k).isSome = true) →
      ∃ n, ((M.shown n s).take? count).isSome = true))
    (P := fun _ _ => ∃ n, ((M.shown n s).take? count).isSome = true) ?_
    ⟨ready, has, count, rfl, id⟩ visits
  rintro ⟨state, left, t⟩ store₂ r store₃ ⟨ready, has, k, rfl, back⟩ step
  cases t with
  | none =>
    have stop := back ⟨1, rfl⟩
    cases k <;> (cases step; exact stop)
  | some cell =>
    cases k with
    | zero =>
      cases step
      exact back ⟨1, by rw [Listing.take?_zero Meaning.isHeaded_shown]; rfl⟩
    | succ k =>
      obtain ⟨next, store₄, looked, same⟩ := Lazy.bind_eq_some.mp step
      cases same
      obtain ⟨leaves, has', follows⟩ := after_of_rest ready has looked
      refine ⟨leaves.ready, has', k, rfl, fun ⟨n, known⟩ => back ⟨n + 1, ?_⟩⟩
      rw [Meaning.shown, follows, Listing.take?_cons, Option.isSome_map]
      exact known

theorem returns_iterTake {count n : Nat} {items : List ν} (ready : store.Ready M)
    (has : store.Has s) (known : (M.shown n s).take? count = some items) :
    (s.iterTake count : Lazy ω ν (List ν)).Returns store M fun items' _ _ => items' = items := by
  have visits : (s.iterateWhile (some count) #[] fun items value => (items.push value, true) :
      Lazy ω ν (Array ν)).Returns store M fun taken _ _ => taken.toList = items := by
    refine Lazy.returns_iterate (I := fun rounds (taken, left, t) store M => store.Has t ∧
      left = some rounds ∧ ∃ n later, (M.shown n t).take? rounds = some later ∧
        taken.toList ++ later = items) ?_ ready ⟨has, rfl, n, items, known, rfl⟩
    rintro rounds ⟨taken, left, t⟩ store M ready ⟨has, rfl, n, later, known, same⟩
    cases n with
    | zero => cases known
    | succ n =>
      cases t with
      | none =>
        cases known
        have last : taken.toList = items := by simpa [Meaning.shown, Listing.whole] using same
        cases rounds <;> exact Lazy.returns_pure ready last
      | some cell =>
        cases rounds with
        | zero =>
          rw [Listing.take?_zero Meaning.isHeaded_shown] at known
          cases known
          rw [List.append_nil] at same
          exact Lazy.returns_pure ready same
        | succ rounds =>
          rw [Meaning.shown, Listing.take?_cons] at known
          obtain ⟨later, behind, rfl⟩ := Option.map_eq_some_iff.mp known
          cases follows : M.after cell.node with
          | none =>
            rw [follows] at behind
            cases behind
          | some next =>
            rw [follows] at behind
            apply (returns_after ready has follows).bind
            rintro next' store' M' leaves ⟨rfl, rfl, has'⟩
            exact Lazy.returns_pure leaves.ready
              ⟨rounds, Nat.lt_succ_self _, has', rfl, n, later, behind, by simp [← same]⟩
  apply visits.bind
  rintro taken store' M' leaves rfl
  exact Lazy.returns_pure leaves.ready rfl

theorem answers_iterTake {count : Nat} (ready : store.Ready M) (has : store.Has s) :
    (s.iterTake count : Lazy ω ν (List ν)).Answers s (fun l => l.take? count) store M where
  came fuel items store' result := by
    obtain ⟨n, known⟩ := exists_take?_of_iterTake ready has result
    obtain ⟨items', known⟩ := Option.isSome_iff_exists.mp known
    have steady : (s.iterTake count : Lazy ω ν (List ν)).Steady :=
      steady_iterateWhile.bind fun _ => Lazy.steady_pure
    obtain ⟨M', leaves, rfl⟩ := (returns_iterTake ready has known).of_eq_some steady result
    exact ⟨⟨M', leaves⟩, n, known⟩
  comes n items known := by
    obtain ⟨items', store', M', settles, -, rfl⟩ := returns_iterTake (ω := ω) ready has known
    exact ⟨store', settles⟩

theorem answers_uncons (ready : store.Ready M) (has : store.Has s) :
    ((fun parts => parts.map fun (value, rest) => (value, rest.first?)) <$> s.splitFirst :
      Lazy ω ν (Option (ν × Option ν))).Answers s Listing.uncons? store M := by
  rw [map_eq_pure_bind]
  cases s with
  | none =>
    constructor
    · intro fuel b store' result
      cases result
      exact ⟨⟨M, .refl ready⟩, 1, rfl⟩
    · intro n b known
      cases n with
      | zero => cases known
      | succ n =>
        cases known
        exact ⟨store, 0, fun _ _ => rfl⟩
  | some cell =>
    constructor
    · intro fuel b store' result
      obtain ⟨parts, store₁, split, same⟩ := Lazy.bind_eq_some.mp result
      cases same
      obtain ⟨t, store₂, looked, same⟩ := Lazy.bind_eq_some.mp split
      cases same
      obtain ⟨leaves, has', follows⟩ := after_of_rest ready has looked
      -- two elements must be known: the first one, and whether there is one behind it
      refine ⟨⟨M, leaves⟩, 2, ?_⟩
      rw [Meaning.shown, follows, Listing.uncons?_cons, Option.elim_some, first?_shown]
      rfl
    · intro n b known
      cases n with
      | zero => cases known
      | succ n =>
        rw [Meaning.shown, Listing.uncons?_cons] at known
        obtain ⟨second, behind, rfl⟩ := Option.map_eq_some_iff.mp known
        cases follows : M.after cell.node with
        | none =>
          rw [follows] at behind
          cases behind
        | some t =>
          rw [follows, Option.elim_some] at behind
          obtain ⟨t', store', M', ⟨enough, settles⟩, leaves, rfl, -⟩ :=
            returns_after (ω := ω) ready has follows
          refine ⟨store', enough, fun fuel more => ?_⟩
          have split : Sequence.splitFirst (some cell) fuel store =
              some (some (cell.value, t'), store') :=
            Lazy.bind_eq_some.mpr ⟨t', store', settles fuel more, rfl⟩
          cases n with
          | zero => cases behind
          | succ n =>
            cases first?_shown.symm.trans behind
            exact Lazy.bind_eq_some.mpr ⟨_, store', split, rfl⟩

end Front

end Sequence

end DemandLex
