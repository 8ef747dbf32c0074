import DemandLex.Proofs.Sequence.Share

/-! Computations on a store that come back, and what consumers of sequences that end come back
with. -/

namespace DemandLex

variable {ω ν α β : Type}

namespace Lazy

theorem bind_eq_some {x : Lazy ω ν α} {f : α → Lazy ω ν β} {fuel : Nat} {store : Store ω ν}
    {result : β × Store ω ν} :
    (x >>= f) fuel store = some result ↔
      ∃ value store', x fuel store = some (value, store') ∧ f value fuel store' = some result := by
  simp only [bind]
  cases x fuel store with
  | none => simp
  | some found => simp [Prod.ext_iff, and_assoc]

theorem settles_bind {x : Lazy ω ν α} {f : α → Lazy ω ν β} {store store' : Store ω ν} {value : α}
    {result : β × Store ω ν} (first : Store.Settles (fun fuel => x fuel store) (value, store'))
    (next : Store.Settles (fun fuel => f value fuel store') result) :
    Store.Settles (fun fuel => (x >>= f) fuel store) result := by
  obtain ⟨enough, settles⟩ := first
  obtain ⟨enough', settles'⟩ := next
  exact ⟨max enough enough', fun fuel more => bind_eq_some.mpr
    ⟨value, store', settles fuel (by omega), settles' fuel (by omega)⟩⟩

/-- On enough fuel the computation comes back, with a value and a store that satisfy `post`; all
that was in the store before keeps its meaning. -/
def Returns (x : Lazy ω ν α) (store : Store ω ν) (M : Meaning ν)
    (post : α → Store ω ν → Meaning ν → Prop) : Prop :=
  ∃ value store' M', Store.Settles (fun fuel => x fuel store) (value, store') ∧
    store.Leaves M store' M' ∧ post value store' M'

section Returns
variable {x : Lazy ω ν α} {store : Store ω ν} {M : Meaning ν}
  {post post' : α → Store ω ν → Meaning ν → Prop}

theorem Returns.mono (returns : x.Returns store M post)
    (weaker : ∀ value store' M', store.Leaves M store' M' → post value store' M' →
      post' value store' M') : x.Returns store M post' := by
  obtain ⟨value, store', M', settles, leaves, found⟩ := returns
  exact ⟨value, store', M', settles, leaves, weaker _ _ _ leaves found⟩

theorem Returns.bind {f : α → Lazy ω ν β} {goal : β → Store ω ν → Meaning ν → Prop}
    (returns : x.Returns store M post)
    (next : ∀ value store' M', store.Leaves M store' M' → post value store' M' →
      (f value).Returns store' M' goal) : (x >>= f).Returns store M goal := by
  obtain ⟨value, store', M', settles, leaves, found⟩ := returns
  obtain ⟨value', store'', M'', settles', leaves', found'⟩ := next value store' M' leaves found
  exact ⟨value', store'', M'', settles_bind settles settles', leaves.trans leaves', found'⟩

theorem returns_unique {value value' : α}
    (returns : x.Returns store M fun found _ _ => found = value)
    (returns' : x.Returns store M fun found _ _ => found = value') : value = value' := by
  obtain ⟨found, last, -, ⟨enough, settles⟩, -, rfl⟩ := returns
  obtain ⟨found', last', -, ⟨enough', settles'⟩, -, rfl⟩ := returns'
  have came := settles (max enough enough') (Nat.le_max_left ..)
  cases came.symm.trans (settles' (max enough enough') (Nat.le_max_right ..))
  rfl

theorem returns_pure {value : α} (ready : store.Ready M) (found : post value store M) :
    (pure value : Lazy ω ν α).Returns store M post :=
  ⟨value, store, M, ⟨0, fun _ _ => rfl⟩, .refl ready, found⟩

theorem Returns.map {f : α → β} (returns : x.Returns store M post) :
    (f <$> x).Returns store M fun result store' M' =>
      ∃ value, result = f value ∧ post value store' M' := by
  rw [map_eq_pure_bind]
  exact returns.bind fun value _ _ leaves found => returns_pure leaves.ready ⟨value, rfl, found⟩

theorem leaves_log (notes : List ω) (ready : store.Ready M) :
    store.Leaves M (store.log notes) M :=
  ⟨⟨ready.fits.congr rfl, ready.idle.congr rfl⟩, fun _ _ => rfl, Nat.le_refl _,
    fun _ => Nat.le_refl _⟩

theorem returns_noted {step : Noted ω α} {f : α → Lazy ω ν β}
    {goal : β → Store ω ν → Meaning ν → Prop} (ready : store.Ready M)
    (next : (f step.value).Returns (store.log step.notes) M goal) :
    (noted step >>= f).Returns store M goal := by
  obtain ⟨value, store', M', settles, leaves, found⟩ := next
  exact ⟨value, store', M', settles, (leaves_log step.notes ready).trans leaves, found⟩

/-- A loop comes back if the rounds left become fewer with every round. -/
theorem returns_iterate {step : β → Lazy ω ν (β ⊕ α)}
    {I : Nat → β → Store ω ν → Meaning ν → Prop}
    (round : ∀ rounds state store M, store.Ready M → I rounds state store M →
      (step state).Returns store M fun r store' M' =>
        match r with
        | .inl next => ∃ fewer, fewer < rounds ∧ I fewer next store' M'
        | .inr result => post result store' M')
    {rounds : Nat} {start : β} (ready : store.Ready M) (holds : I rounds start store M) :
    (iterate step start).Returns store M post := by
  suffices ∃ value store' M', (∃ enough, ∀ fuel left, enough ≤ fuel → rounds < left →
      iterate.go step fuel left start store = some (value, store')) ∧
      store.Leaves M store' M' ∧ post value store' M' by
    obtain ⟨value, store', M', ⟨enough, settles⟩, leaves, found⟩ := this
    exact ⟨value, store', M', ⟨max enough (rounds + 1), fun fuel more =>
      settles fuel fuel (by omega) (by omega)⟩, leaves, found⟩
  induction rounds using Nat.strongRecOn generalizing start store M with
  | ind rounds ih =>
    obtain ⟨r, store', M', ⟨enough, settles⟩, leaves, found⟩ := round rounds start store M ready holds
    cases r with
    | inr result =>
      refine ⟨result, store', M', ⟨enough, ?_⟩, leaves, found⟩
      intro fuel left more some_left
      obtain ⟨left, rfl⟩ := Nat.exists_eq_succ_of_ne_zero (Nat.ne_zero_of_lt some_left)
      have stepped : step start fuel store = some (.inr result, store') := settles fuel more
      simp only [iterate.go, stepped]
    | inl next =>
      obtain ⟨fewer, less, holds'⟩ := found
      obtain ⟨value, store'', M'', ⟨enough', settles'⟩, leaves', found'⟩ :=
        ih fewer less leaves.ready holds'
      refine ⟨value, store'', M'', ⟨max enough enough', ?_⟩, leaves.trans leaves', found'⟩
      intro fuel left more some_left
      obtain ⟨left, rfl⟩ := Nat.exists_eq_succ_of_ne_zero (Nat.ne_zero_of_lt some_left)
      have stepped : step start fuel store = some (.inl next, store') := settles fuel (by omega)
      simp only [iterate.go, stepped]
      exact settles' fuel left (by omega) (by omega)

theorem post_of_iterate {step : β → Lazy ω ν (β ⊕ α)} {I : β → Store ω ν → Prop}
    {P : α → Store ω ν → Prop} {fuel : Nat} {start : β} {value : α} {store store' : Store ω ν}
    (round : ∀ state store r store', I state store → step state fuel store = some (r, store') →
      match r with
      | .inl next => I next store'
      | .inr result => P result store')
    (holds : I start store) (result : iterate step start fuel store = some (value, store')) :
    P value store' := by
  suffices ∀ left start store, I start store →
      iterate.go step fuel left start store = some (value, store') → P value store' from
    this fuel start store holds result
  intro left
  induction left with
  | zero =>
    intro start store _ result
    cases result
  | succ left ih =>
    intro start store holds result
    rw [iterate.go] at result
    split at result
    · cases result
    · rename_i next store₁ stepped
      exact ih next store₁ (round start store _ store₁ holds stepped) result
    · rename_i final store₁ stepped
      cases result
      exact round start store _ store' holds stepped

end Returns

end Lazy

namespace Producer

theorem returns_share {store : Store ω ν} {M : Meaning ν} {source : Producer ω ν ν}
    {r : Option (ν × source.State)} (ready : store.Ready M)
    (grounded : Grounded store.spines.size source.step store.size source.state)
    (reached : Reaches M source.step source.state r) :
    source.share.Returns store M fun s store' M' => Shared M store source (pure none) s store' M' := by
  have shareable := shareable_of_grounded grounded
  obtain ⟨⟨s, store'⟩, enough, settles⟩ := shareBefore_settles ready shareable reached
  have shared := shared_of_eq_some ready shareable (settles enough (Nat.le_refl _))
  exact ⟨s, store', _, ⟨enough, settles⟩, shared.leaves, shared⟩

end Producer

namespace Sequence

variable {store : Store ω ν} {M : Meaning ν} {s : Sequence ν} {values : List ν}

structure Lists (s : Sequence ν) (values : List ν) (store : Store ω ν) (M : Meaning ν) : Prop where
  has : store.Has s
  holds : M.Holds s values

theorem Lists.later {store' : Store ω ν} {M' : Meaning ν} (lists : s.Lists values store M)
    (ready : store.Ready M) (leaves : store.Leaves M store' M') : s.Lists values store' M' :=
  ⟨leaves.has lists.has, leaves.holds ready lists.has lists.holds⟩

theorem returns_lists {source : Producer ω ν ν} (ready : store.Ready M)
    (grounded : Producer.Grounded store.spines.size source.step store.size source.state)
    (gives : Producer.Gives M source.step source.state values) :
    source.share.Returns store M fun t store' M' => t.Lists values store' M' := by
  obtain ⟨r, reached⟩ := gives.reaches
  apply (Producer.returns_share ready grounded reached).mono
  intro t store' M' leaves shared
  exact ⟨shared.has, by simpa using shared.holds values [] gives .nil⟩

theorem returns_scanFilter {σ : Type} {start : σ} {step : σ → ν → Noted ω (σ × Option ν)}
    (ready : store.Ready M) (lists : s.Lists values store M) :
    ((Producer.ofSequence s).scanFilter start step).share.Returns store M fun t store' M' =>
      t.Lists (Producer.scanned step start values) store' M' :=
  returns_lists ready (Producer.grounded_scanFilter (Producer.grounded_reading lists.has))
    (Producer.gives_scanFilter (Producer.gives_reading lists.holds))

theorem returns_after {cell : Cell ν} {t : Sequence ν} (ready : store.Ready M)
    (has : store.Has (some cell)) (follows : M.after cell.node = some t) :
    (rest (some cell) : Lazy ω ν (Sequence ν)).Returns store M fun t' store' M' =>
      t' = t ∧ M' = M ∧ store'.Has t := by
  obtain ⟨store', settles⟩ := Store.rest_settles (ready.asking has) follows
  have found := Store.found_of_settles (ready.asking has) settles
  obtain ⟨leaves, has'⟩ := found.leaves ready (has cell rfl).1
  exact ⟨t, store', M, settles, leaves, rfl, rfl, has'⟩

theorem returns_rest {cell : Cell ν} (ready : store.Ready M)
    (lists : Lists (some cell) values store M) :
    (rest (some cell) : Lazy ω ν (Sequence ν)).Returns store M fun t store' M' =>
      ∃ later, values = cell.value :: later ∧ t.Lists later store' M' := by
  obtain ⟨has, holds⟩ := lists
  cases holds with
  | cons follows tail =>
    apply (returns_after ready has follows).mono
    rintro t store' M' leaves ⟨rfl, rfl, has'⟩
    exact ⟨_, rfl, has', tail⟩

theorem returns_splitFirst (ready : store.Ready M) (lists : s.Lists values store M) :
    (s.splitFirst : Lazy ω ν _).Returns store M fun r store' M' =>
      match values with
      | [] => r = none
      | value :: later => ∃ t : Sequence ν, r = some (value, t) ∧ t.Lists later store' M' := by
  cases s with
  | none =>
    cases lists.holds
    exact Lazy.returns_pure ready rfl
  | some cell =>
    apply (returns_rest ready lists).bind
    intro t store' M' leaves found
    obtain ⟨later, rfl, lists'⟩ := found
    exact Lazy.returns_pure leaves.ready ⟨t, rfl, lists'⟩

theorem returns_foldM {f : α → ν → Noted ω α} {start : α} (ready : store.Ready M)
    (lists : s.Lists values store M) :
    (s.foldM start f).Returns store M fun result _ _ =>
      result = values.foldl (fun reduced value => (f reduced value).value) start := by
  refine Lazy.returns_iterate (I := fun rounds state store M =>
    ∃ left, rounds = left.length ∧ state.2.Lists left store M ∧
      left.foldl (fun reduced value => (f reduced value).value) state.1 =
        values.foldl (fun reduced value => (f reduced value).value) start) ?_ ready
    ⟨values, rfl, lists, rfl⟩
  intro rounds state store M ready found
  obtain ⟨reduced, s⟩ := state
  obtain ⟨left, rfl, lists, same⟩ := found
  cases s with
  | none =>
    cases lists.holds
    exact Lazy.returns_pure ready same
  | some cell =>
    have leaves := Lazy.leaves_log (f reduced cell.value).notes ready
    apply Lazy.returns_noted ready
    apply (returns_rest leaves.ready (lists.later ready leaves)).bind
    intro t store'' M'' leaves' found
    obtain ⟨later, rfl, lists'⟩ := found
    exact Lazy.returns_pure leaves'.ready
      ⟨later.length, Nat.lt_succ_self _, later, rfl, lists', same⟩

theorem returns_toList (ready : store.Ready M) (lists : s.Lists values store M) :
    (s.toList : Lazy ω ν (List ν)).Returns store M fun items _ _ => items = values := by
  apply (returns_foldM ready lists).bind
  intro items store' M' leaves same
  subst same
  exact Lazy.returns_pure leaves.ready (by simp)

def visited (visit : α → ν → α × Bool) : α → List ν → α
  | state, [] => state
  | state, item :: later =>
    let (next, more) := visit state item
    if more then visited visit next later else next

theorem returns_iterateWhile {visit : α → ν → α × Bool} {start : α} (ready : store.Ready M)
    (lists : s.Lists values store M) :
    (s.iterateWhile none start visit : Lazy ω ν α).Returns store M fun result _ _ =>
      result = visited visit start values := by
  refine Lazy.returns_iterate (I := fun rounds state store M =>
    ∃ left, rounds = left.length ∧ state.2.1 = none ∧ state.2.2.Lists left store M ∧
      visited visit state.1 left = visited visit start values) ?_ ready
    ⟨values, rfl, rfl, lists, rfl⟩
  intro rounds visit store M ready found
  obtain ⟨state, count, s⟩ := visit
  obtain ⟨left, rfl, rfl, lists, same⟩ := found
  cases s with
  | none =>
    cases lists.holds
    exact Lazy.returns_pure ready same
  | some cell =>
    apply (returns_rest ready lists).bind
    intro t store' M' leaves found
    obtain ⟨later, rfl, lists'⟩ := found
    apply Lazy.returns_pure leaves.ready
    dsimp only [visited] at same ⊢
    generalize visit state cell.value = visit at same ⊢
    obtain ⟨next, more⟩ := visit
    cases more with
    | true => exact ⟨later.length, Nat.lt_succ_self _, later, rfl, rfl, lists', same⟩
    | false => exact same

theorem after_of_rest {cell : Cell ν} {fuel : Nat} {t : Sequence ν} {store' : Store ω ν}
    (ready : store.Ready M) (has : store.Has (some cell))
    (result : rest (some cell) fuel store = some (t, store')) :
    store.Leaves M store' M ∧ store'.Has t ∧ M.after cell.node = some t := by
  have found := Store.found_of_rest (ready.asking has) result
  obtain ⟨leaves, has'⟩ := found.leaves ready (has cell rfl).1
  exact ⟨leaves, has', found.stands⟩

theorem begins_of_iterTake {count fuel : Nat} {items : List ν} {store' : Store ω ν}
    (ready : store.Ready M) (has : store.Has s)
    (result : s.iterTake count fuel store = some (items, store')) : M.Begins s items := by
  obtain ⟨taken, store₁, visits, same⟩ := Lazy.bind_eq_some.mp result
  cases same
  refine Lazy.post_of_iterate (I := fun (items, _, t) store' => store.Leaves M store' M ∧
    store'.Has t ∧ ∀ later, M.Begins t later → M.Begins s (items.toList ++ later))
    (P := fun items _ => M.Begins s items.toList) ?_
    ⟨.refl ready, has, fun later begins => by simpa using begins⟩ visits
  intro state store₂ r store₃ found step
  obtain ⟨items, left, t⟩ := state
  obtain ⟨leaves, has, front⟩ := found
  have stop : M.Begins s items.toList := by simpa using front [] .nil
  cases t with
  | none =>
    rcases left with _ | _ | left <;> (cases step; exact stop)
  | some cell =>
    have handed {tail : Sequence ν} {store₄ : Store ω ν}
        (looked : rest (some cell) fuel store₂ = some (tail, store₄)) :
        store.Leaves M store₄ M ∧ store₄.Has tail ∧
          ∀ later, M.Begins tail later → M.Begins s ((items.push cell.value).toList ++ later) := by
      obtain ⟨leaves', has', follows⟩ := after_of_rest leaves.ready has looked
      refine ⟨leaves.trans leaves', has', ?_⟩
      intro later begins
      simpa using front (cell.value :: later) (.cons follows begins)
    rcases left with _ | _ | left
    · obtain ⟨tail, store₄, looked, same⟩ := Lazy.bind_eq_some.mp step
      cases same
      exact handed looked
    · cases step
      exact stop
    · obtain ⟨tail, store₄, looked, same⟩ := Lazy.bind_eq_some.mp step
      cases same
      exact handed looked

end Sequence

end DemandLex
