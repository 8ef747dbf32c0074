import DemandLex.Proofs.Sequence.Consumer

/-! What has come back on some fuel comes back unchanged on more. -/

namespace DemandLex

variable {ω ν α β : Type}

namespace Store

theorem same_of_more (fuel : Nat) :
    (∀ {node : Node} {store store' : Store ω ν} {s : Sequence ν},
      rest fuel node store = some (s, store') →
        ∀ {more : Nat}, fuel ≤ more → rest more node store = some (s, store')) ∧
    (∀ {id : Nat} {source : Producer ω ν ν} {tail : Noted ω (Sequence ν)}
      {store store' : Store ω ν} {s : Sequence ν},
      extend fuel id source tail store = some (s, store') →
        ∀ {more : Nat}, fuel ≤ more → extend more id source tail store = some (s, store')) := by
  refine forcing_induction
    (P := fun fuel node store s store' => ∀ {more : Nat}, fuel ≤ more →
      rest more node store = some (s, store'))
    (Q := fun fuel id source tail store s store' => ∀ {more : Nat}, fuel ≤ more →
      extend more id source tail store = some (s, store'))
    ?stored ?run ?yield ?skip ?force ?done fuel
  case stored =>
    intro fuel node store s there more enough
    obtain ⟨more, rfl⟩ := Nat.exists_eq_succ_of_ne_zero (Nat.ne_zero_of_lt enough)
    exact there.rest_eq more
  case run =>
    intro fuel node store elements source tail s store' present last extended more enough
    obtain ⟨more, rfl⟩ := Nat.exists_eq_succ_of_ne_zero (Nat.ne_zero_of_lt enough)
    exact (rest_suspended present last).trans (extended (Nat.le_of_succ_le_succ enough))
  case yield =>
    intro fuel id source tail store value next move logged more enough
    obtain ⟨more, rfl⟩ := Nat.exists_eq_succ_of_ne_zero (Nat.ne_zero_of_lt enough)
    exact extend_yield move
  case skip =>
    intro fuel id source tail store next s store' move extended more enough
    obtain ⟨more, rfl⟩ := Nat.exists_eq_succ_of_ne_zero (Nat.ne_zero_of_lt enough)
    exact (extend_skip move).trans (extended (Nat.le_of_succ_le_succ enough))
  case force =>
    intro fuel id source tail store node resume q middle s store' move answered answers extended
      more enough
    obtain ⟨more, rfl⟩ := Nat.exists_eq_succ_of_ne_zero (Nat.ne_zero_of_lt enough)
    have enough := Nat.le_of_succ_le_succ enough
    rw [extend_force move, answers enough]
    exact extended enough
  case done =>
    intro fuel id source tail store move more enough
    obtain ⟨more, rfl⟩ := Nat.exists_eq_succ_of_ne_zero (Nat.ne_zero_of_lt enough)
    exact extend_done move

end Store

namespace Lazy

/-- A result does not depend on the fuel that it came back on. -/
def Steady (x : Lazy ω ν α) : Prop :=
  ∀ (fuel more : Nat) (store : Store ω ν) (result : α × Store ω ν), fuel ≤ more →
    x fuel store = some result → x more store = some result

theorem Steady.settles {x : Lazy ω ν α} {fuel : Nat} {store : Store ω ν} {result : α × Store ω ν}
    (steady : x.Steady) (came : x fuel store = some result) :
    Store.Settles (fun fuel => x fuel store) result :=
  ⟨fuel, fun more enough => steady fuel more store result enough came⟩

/-- What comes back on some fuel is what comes back on enough of it. -/
theorem Steady.unique {x : Lazy ω ν α} {fuel : Nat} {store : Store ω ν}
    {result result' : α × Store ω ν} (steady : x.Steady) (came : x fuel store = some result)
    (settles : Store.Settles (fun fuel => x fuel store) result') : result = result' := by
  obtain ⟨enough, settles⟩ := settles
  have later := steady fuel (max fuel enough) store _ (Nat.le_max_left ..) came
  exact Option.some_inj.mp (later.symm.trans (settles _ (Nat.le_max_right ..)))

theorem steady_pure {value : α} : (pure value : Lazy ω ν α).Steady :=
  fun _ _ _ _ _ came => came

theorem steady_noted {step : Noted ω α} : (noted step : Lazy ω ν α).Steady :=
  fun _ _ _ _ _ came => came

theorem Steady.bind {x : Lazy ω ν α} {f : α → Lazy ω ν β} (first : x.Steady)
    (next : ∀ value, (f value).Steady) : (x >>= f).Steady := by
  intro fuel more store result enough came
  obtain ⟨value, store', before, behind⟩ := bind_eq_some.mp came
  exact bind_eq_some.mpr ⟨value, store', first fuel more store _ enough before,
    next value fuel more store' _ enough behind⟩

theorem Steady.map {x : Lazy ω ν α} {f : α → β} (steady : x.Steady) : (f <$> x).Steady := by
  rw [map_eq_pure_bind]
  exact steady.bind fun _ => steady_pure

section Iterate
variable {step : β → Lazy ω ν (β ⊕ α)} {start next : β} {store store' : Store ω ν}
  {result : α × Store ω ν}

theorem go_more (steady : ∀ state, (step state).Steady) {fuel more left left' : Nat}
    (enough : fuel ≤ more) (rounds : left ≤ left')
    (came : iterate.go step fuel left start store = some result) :
    iterate.go step more left' start store = some result := by
  induction left generalizing left' start store with
  | zero => cases came
  | succ left ih =>
    obtain ⟨left', rfl⟩ := Nat.exists_eq_succ_of_ne_zero (Nat.ne_zero_of_lt rounds)
    rw [iterate.go] at came ⊢
    cases stepped : step start fuel store with
    | none => simp [stepped] at came
    | some found =>
      obtain ⟨r, store'⟩ := found
      rw [stepped] at came
      rw [steady start fuel more store _ enough stepped]
      cases r with
      | inl next => exact ih (Nat.le_of_succ_le_succ rounds) came
      | inr value => exact came

theorem Steady.iterate (steady : ∀ state, (step state).Steady) : (Lazy.iterate step start).Steady :=
  fun _ _ _ _ enough came => go_more steady enough enough came

theorem settles_iterate (steady : ∀ state, (step state).Steady)
    (first : Store.Settles (fun fuel => step start fuel store) (.inl next, store'))
    (later : Store.Settles (fun fuel => Lazy.iterate step next fuel store') result) :
    Store.Settles (fun fuel => Lazy.iterate step start fuel store) result := by
  obtain ⟨enough, first⟩ := first
  obtain ⟨enough', later⟩ := later
  refine ⟨max enough (enough' + 1), fun fuel more => ?_⟩
  have stepped : step start fuel store = some (.inl next, store') := first fuel (by omega)
  obtain ⟨left, rfl⟩ := Nat.exists_eq_succ_of_ne_zero (n := fuel) (by omega)
  have behind : iterate.go step (left + 1) left next store' = some result :=
    go_more steady (by omega) (by omega) (later enough' le_rfl)
  simpa only [Lazy.iterate, iterate.go, stepped] using behind

theorem settles_iterate_last {value : α}
    (last : Store.Settles (fun fuel => step start fuel store) (.inr value, store')) :
    Store.Settles (fun fuel => Lazy.iterate step start fuel store) (value, store') := by
  obtain ⟨enough, last⟩ := last
  refine ⟨enough + 1, fun fuel more => ?_⟩
  have stepped : step start fuel store = some (.inr value, store') := last fuel (by omega)
  obtain ⟨left, rfl⟩ := Nat.exists_eq_succ_of_ne_zero (Nat.ne_zero_of_lt more)
  simp only [Lazy.iterate, iterate.go, stepped]

end Iterate

theorem Returns.of_eq_some {x : Lazy ω ν α} {store store' : Store ω ν} {M : Meaning ν}
    {post : α → Store ω ν → Meaning ν → Prop} {fuel : Nat} {value : α}
    (returns : x.Returns store M post) (steady : x.Steady)
    (came : x fuel store = some (value, store')) :
    ∃ M', store.Leaves M store' M' ∧ post value store' M' := by
  obtain ⟨value', last, M', ⟨enough, settles⟩, leaves, found⟩ := returns
  have later := steady fuel (max fuel enough) store _ (Nat.le_max_left ..) came
  cases later.symm.trans (settles (max fuel enough) (Nat.le_max_right ..))
  exact ⟨M', leaves, found⟩

end Lazy

theorem Store.steady_rest {node : Node} :
    Lazy.Steady fun fuel (store : Store ω ν) => rest fuel node store :=
  fun fuel _ _ _ enough came => (same_of_more fuel).1 came enough

theorem Sequence.steady_rest {s : Sequence ν} : (rest s : Lazy ω ν (Sequence ν)).Steady := by
  cases s with
  | none => exact Lazy.steady_pure
  | some cell => exact Store.steady_rest

theorem Producer.steady_share {source : Producer ω ν ν} : source.share.Steady :=
  fun fuel _ _ _ enough came => (Store.same_of_more fuel).2 came enough

end DemandLex
