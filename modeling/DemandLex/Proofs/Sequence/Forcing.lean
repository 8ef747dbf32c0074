import DemandLex.Proofs.Sequence.Store

/-! Forcing finds what a meaning says, and comes back wherever the meaning says something. -/

namespace DemandLex.Store

universe u

variable {ω ν : Type} {M : Meaning ν}

theorem Found.after {first store store' : Store ω ν} {place : Node} {s : Sequence ν}
    (found : Found M place store s store') (before : first.Grows store (place.spine + 1)) :
    Found M place first s store' :=
  ⟨found.stands, found.fits, found.idle, before.trans found.grows (Nat.le_refl _), found.within⟩

section Equations
variable {fuel : Nat} {id : Nat} {source : Producer ω ν ν} {tail : Noted ω (Sequence ν)}
  {store : Store ω ν} {node : Node} {elements : Array ν}

theorem rest_absent (absent : store.spines[node.spine]? = none) :
    rest (fuel + 1) node store = some (none, store) := by
  simp only [rest, absent]

theorem rest_stored {spine : Spine ω ν} {value : ν}
    (present : store.spines[node.spine]? = some spine)
    (stored : spine.elements[node.index + 1]? = some value) :
    rest (fuel + 1) node store = some (some ⟨value, node.spine, node.index + 1⟩, store) := by
  simp only [rest, present, stored]

theorem rest_closed {tail : Sequence ν}
    (present : store.spines[node.spine]? = some ⟨elements, .closed tail⟩)
    (last : elements[node.index + 1]? = none) :
    rest (fuel + 1) node store = some (tail, store) := by
  simp only [rest, present, last]

theorem rest_running (present : store.spines[node.spine]? = some ⟨elements, .running⟩)
    (last : elements[node.index + 1]? = none) :
    rest (fuel + 1) node store = some (none, store) := by
  simp only [rest, present, last]

theorem rest_suspended
    (present : store.spines[node.spine]? = some ⟨elements, .suspended source tail⟩)
    (last : elements[node.index + 1]? = none) :
    rest (fuel + 1) node store = extend fuel node.spine source tail (store.begin node) := by
  simp only [rest, present, last]

theorem extend_yield {value : ν} {next : source.State}
    (move : (source.step source.state).value = .yield value next) :
    extend (fuel + 1) id source tail store =
      let store := store.log (source.step source.state).notes
      some (some ⟨value, id, store.size id⟩,
        store.push id value (.suspended { source with state := next } tail)) := by
  simp only [extend, move]

theorem extend_skip {next : source.State}
    (move : (source.step source.state).value = .skip next) :
    extend (fuel + 1) id source tail store =
      extend fuel id { source with state := next } tail
        (store.log (source.step source.state).notes) := by
  simp only [extend, move]

theorem extend_force {node : Node} {resume : Sequence ν → source.State}
    (move : (source.step source.state).value = .force node resume) :
    extend (fuel + 1) id source tail store =
      match rest fuel node (store.log (source.step source.state).notes) with
      | none => none
      | some (s, store) => extend fuel id { source with state := resume s } tail store := by
  cases answered : rest fuel node (store.log (source.step source.state).notes) with
  | none => simp only [extend, move, answered]
  | some result => simp only [extend, move, answered]

theorem extend_done (move : (source.step source.state).value = .done) :
    extend (fuel + 1) id source tail store =
      some (tail.value, ((store.log (source.step source.state).notes).log
        tail.notes).setFrontier id (.closed tail.value)) := by
  simp only [extend, move]

end Equations

section Stored
variable {store : Store ω ν} {node : Node} {s : Sequence ν}

/-- What is found behind a node where no producer has to run for it. -/
inductive Stored (store : Store ω ν) (node : Node) : Sequence ν → Prop
  | absent (absent : store.spines[node.spine]? = none) : Stored store node none
  | element {spine : Spine ω ν} {value : ν} (present : store.spines[node.spine]? = some spine)
      (stored : spine.elements[node.index + 1]? = some value) :
      Stored store node (some ⟨value, node.spine, node.index + 1⟩)
  | closed {elements : Array ν} {tail : Sequence ν}
      (present : store.spines[node.spine]? = some ⟨elements, .closed tail⟩)
      (last : elements[node.index + 1]? = none) : Stored store node tail
  | running {elements : Array ν} (present : store.spines[node.spine]? = some ⟨elements, .running⟩)
      (last : elements[node.index + 1]? = none) : Stored store node none

theorem Stored.rest_eq (stored : store.Stored node s) (fuel : Nat) :
    rest (fuel + 1) node store = some (s, store) := by
  cases stored with
  | absent absent => exact rest_absent absent
  | element present stored => exact rest_stored present stored
  | closed present last => exact rest_closed present last
  | running present last => exact rest_running present last

theorem Stored.congr {other : Store ω ν} (stored : store.Stored node s)
    (same : store.spines[node.spine]? = other.spines[node.spine]?) : other.Stored node s := by
  cases stored with
  | absent absent => exact .absent (same ▸ absent)
  | element present stored => exact .element (same ▸ present) stored
  | closed present last => exact .closed (same ▸ present) last
  | running present last => exact .running (same ▸ present) last

theorem stored_or_suspended (store : Store ω ν) (node : Node) :
    (∃ s, store.Stored node s) ∨ ∃ elements source tail,
      store.spines[node.spine]? = some ⟨elements, .suspended source tail⟩ ∧
      elements[node.index + 1]? = none := by
  cases present : store.spines[node.spine]? with
  | none => exact .inl ⟨_, .absent present⟩
  | some spine =>
    obtain ⟨elements, frontier⟩ := spine
    cases stored : elements[node.index + 1]? with
    | some value => exact .inl ⟨_, .element present stored⟩
    | none =>
      cases frontier with
      | closed tail => exact .inl ⟨_, .closed present stored⟩
      | running => exact .inl ⟨_, .running present stored⟩
      | suspended source tail => exact .inr ⟨elements, source, tail, rfl, stored⟩

end Stored

section Induction
variable {P : Nat → Node → Store ω ν → Sequence ν → Store ω ν → Prop}
  {Q : Nat → Nat → Producer ω ν ν → Noted ω (Sequence ν) → Store ω ν → Sequence ν → Store ω ν → Prop}

/-- A look behind a node finds what is stored or extends the spine, and an extension goes on until its
producer yields or is done. What each of these steps keeps holds of all looks and extensions that come
back. -/
theorem forcing_induction
    (stored : ∀ fuel node store s, store.Stored node s → P (fuel + 1) node store s store)
    (run : ∀ fuel node store elements source tail s store',
      store.spines[node.spine]? = some ⟨elements, .suspended source tail⟩ →
      elements[node.index + 1]? = none → Q fuel node.spine source tail (store.begin node) s store' →
      P (fuel + 1) node store s store')
    (yield : ∀ fuel id (source : Producer ω ν ν) tail store value next,
      (source.step source.state).value = .yield value next →
      let logged := store.log (source.step source.state).notes
      Q (fuel + 1) id source tail store (some ⟨value, id, logged.size id⟩)
        (logged.push id value (.suspended { source with state := next } tail)))
    (skip : ∀ fuel id (source : Producer ω ν ν) tail store next s store',
      (source.step source.state).value = .skip next →
      Q fuel id { source with state := next } tail (store.log (source.step source.state).notes) s
        store' →
      Q (fuel + 1) id source tail store s store')
    (force : ∀ fuel id (source : Producer ω ν ν) tail store node resume q middle s store',
      (source.step source.state).value = .force node resume →
      rest fuel node (store.log (source.step source.state).notes) = some (q, middle) →
      P fuel node (store.log (source.step source.state).notes) q middle →
      Q fuel id { source with state := resume q } tail middle s store' →
      Q (fuel + 1) id source tail store s store')
    (done : ∀ fuel id (source : Producer ω ν ν) tail store,
      (source.step source.state).value = .done →
      Q (fuel + 1) id source tail store tail.value
        (((store.log (source.step source.state).notes).log tail.notes).setFrontier id
          (.closed tail.value)))
    (fuel : Nat) :
    (∀ {node : Node} {store store' : Store ω ν} {s : Sequence ν},
      rest fuel node store = some (s, store') → P fuel node store s store') ∧
    (∀ {id : Nat} {source : Producer ω ν ν} {tail : Noted ω (Sequence ν)}
      {store store' : Store ω ν} {s : Sequence ν},
      extend fuel id source tail store = some (s, store') →
        Q fuel id source tail store s store') := by
  induction fuel with
  | zero =>
    constructor
    · intro node store store' s result
      simp [rest] at result
    · intro id source tail store store' s result
      simp [extend] at result
  | succ fuel ih =>
    obtain ⟨looks, extensions⟩ := ih
    constructor
    · intro node store store' s result
      rcases stored_or_suspended store node with
        ⟨q, there⟩ | ⟨elements, source, tail, present, last⟩
      · rw [there.rest_eq] at result
        cases result
        exact stored fuel node store _ there
      · rw [rest_suspended present last] at result
        exact run fuel node store elements source tail s store' present last (extensions result)
    · intro id source tail store store' s result
      cases move : (source.step source.state).value with
      | yield value next =>
        rw [extend_yield move] at result
        cases result
        exact yield fuel id source tail store value next move
      | skip next =>
        rw [extend_skip move] at result
        exact skip fuel id source tail store next s store' move (extensions result)
      | force node resume =>
        rw [extend_force move] at result
        split at result
        · cases result
        · next q middle answered =>
          exact force fuel id source tail store node resume q middle s store' move answered
            (looks answered) (extensions result)
      | done =>
        rw [extend_done move] at result
        cases result
        exact done fuel id source tail store move

end Induction

section Asking
variable {store : Store ω ν} {node : Node}

theorem Asking.last {elements : Array ν} {frontier : Frontier ω ν} (asking : Asking M store node)
    (present : store.spines[node.spine]? = some ⟨elements, frontier⟩)
    (beyond : elements[node.index + 1]? = none) : elements.size = node.index + 1 := by
  have computed := asking.computed
  rw [size_eq present] at computed
  exact Nat.le_antisymm (Array.getElem?_eq_none_iff.mp beyond) computed

theorem Asking.extending {elements : Array ν} {source : Producer ω ν ν}
    {tail : Noted ω (Sequence ν)} (asking : Asking M store node)
    (present : store.spines[node.spine]? = some ⟨elements, .suspended source tail⟩)
    (last : elements.size = node.index + 1) :
    Extending M (store.begin node) ⟨node.spine, node.index + 1⟩ source tail ∧
      store.Grows (store.begin node) (node.spine + 1) := by
  obtain ⟨fits, idle, -⟩ := asking
  obtain ⟨continues, grounded, within⟩ := last ▸ fits.frontier _ _ present
  have grows : store.Grows (store.begin node) (node.spine + 1) :=
    .modified present spines_begin (Nat.le_refl _)
  refine ⟨⟨?_, ?_, ⟨elements, getElem?_begin present, last⟩, continues, grounded.grow grows.sizes,
    within.grow grows.sizes⟩, grows⟩
  · apply fits.modified present spines_begin (Nat.le_refl _) _ trivial
    intro index value there
    exact fits.stored _ _ present index value there
  · intro id spine older there
    rw [getElem?_modified present spines_begin, if_neg (Nat.ne_of_lt older)] at there
    exact idle id spine (Nat.lt_succ_of_lt older) there

theorem Asking.found_of_stored {q : Sequence ν} (asking : Asking M store node)
    (there : store.Stored node q) : Found M ⟨node.spine, node.index + 1⟩ store q store := by
  have fits := asking.fits
  have idle := asking.idle
  cases there with
  | absent absent =>
    have computed := asking.computed
    simp [size, absent] at computed
  | @element spine value present stored =>
    refine .of_same (fits.stored _ _ present _ _ stored) fits idle rfl ?_
    intro cell same
    cases same
    rw [size_eq present]
    exact ⟨Nat.lt_succ_self _, (Array.getElem?_eq_some_iff.mp stored).1⟩
  | closed present beyond =>
    have follows := asking.last present beyond ▸ fits.frontier _ _ present
    exact .of_same follows.1 fits idle rfl (follows.2.weaken (Nat.le_succ _))
  | running present beyond => exact absurd rfl (idle _ _ (Nat.lt_succ_self _) present)

end Asking

theorem Extending.size_eq {store : Store ω ν} {place : Node} {source : Producer ω ν ν}
    {tail : Noted ω (Sequence ν)} (extending : Extending M store place source tail) :
    store.size place.spine = place.index := by
  obtain ⟨elements, found, count⟩ := extending.running
  rw [Store.size_eq found, count]

/-- Whatever the fuel, a result is what the meaning says. -/
theorem found_of_eq_some (fuel : Nat) :
    (∀ {node : Node} {store store' : Store ω ν} {s : Sequence ν},
      rest fuel node store = some (s, store') → Asking M store node →
        Found M ⟨node.spine, node.index + 1⟩ store s store') ∧
    (∀ {id : Nat} {source : Producer ω ν ν} {tail : Noted ω (Sequence ν)}
      {store store' : Store ω ν} {s : Sequence ν},
      extend fuel id source tail store = some (s, store') →
        ∀ index, Extending M store ⟨id, index⟩ source tail →
          Found M ⟨id, index⟩ store s store') := by
  refine forcing_induction
    (P := fun _ node store s store' => Asking M store node →
      Found M ⟨node.spine, node.index + 1⟩ store s store')
    (Q := fun _ id source tail store s store' => ∀ index,
      Extending M store ⟨id, index⟩ source tail → Found M ⟨id, index⟩ store s store')
    ?stored ?run ?yield ?skip ?force ?done fuel
  case stored =>
    intro fuel node store s there asking
    exact asking.found_of_stored there
  case run =>
    intro fuel node store elements source tail s store' present beyond extended asking
    obtain ⟨extending, before⟩ := asking.extending present (asking.last present beyond)
    exact (extended _ extending).after before
  case yield =>
    intro fuel id source tail store value next move logged index extending
    have extending' : Extending M logged ⟨id, index⟩ source tail := extending.log _
    rw [extending'.size_eq]
    exact (extending'.found_yield move).after (.of_spines_eq rfl)
  case skip =>
    intro fuel id source tail store next s store' move extended index extending
    exact (extended index ((extending.log _).skip move)).after (.of_spines_eq rfl)
  case force =>
    intro fuel id source tail store node resume q middle s store' move answered answers extended
      index extending
    have logged := extending.log (source.step source.state).notes
    obtain ⟨older, asking⟩ := logged.asking move
    have answer := answers asking
    have found := extended index (logged.resume move answer)
    exact (found.after (answer.grows.weaken (Nat.le_succ_of_le older))).after (.of_spines_eq rfl)
  case done =>
    intro fuel id source tail store move index extending
    exact ((extending.log _).found_done move).after (.of_spines_eq rfl)

theorem found_of_rest {fuel : Nat} {node : Node} {store store' : Store ω ν} {s : Sequence ν}
    (asking : Asking M store node) (result : rest fuel node store = some (s, store')) :
    Found M ⟨node.spine, node.index + 1⟩ store s store' :=
  (found_of_eq_some fuel).1 result asking

theorem found_of_extend {fuel : Nat} {place : Node} {source : Producer ω ν ν}
    {tail : Noted ω (Sequence ν)} {store store' : Store ω ν} {s : Sequence ν}
    (extending : Extending M store place source tail)
    (result : extend fuel place.spine source tail store = some (s, store')) :
    Found M place store s store' :=
  (found_of_eq_some fuel).2 result place.index extending

/-- A computation comes back with the same result on any fuel that is large enough. -/
def Settles {α : Type u} (x : Nat → Option α) (result : α) : Prop :=
  ∃ enough, ∀ fuel, enough ≤ fuel → x fuel = some result

theorem settles_of_succ {α : Type u} {x : Nat → Option α} {result : α}
    (settles : Settles (fun fuel => x (fuel + 1)) result) : Settles x result := by
  obtain ⟨enough, returns⟩ := settles
  refine ⟨enough + 1, ?_⟩
  intro fuel more
  cases fuel with
  | zero => omega
  | succ fuel => exact returns fuel (by omega)

theorem found_of_settles {node : Node} {store store' : Store ω ν} {q : Sequence ν}
    (asking : Asking M store node) (settles : Settles (fun fuel => rest fuel node store) (q, store')) :
    Found M ⟨node.spine, node.index + 1⟩ store q store' := by
  obtain ⟨enough, returns⟩ := settles
  exact found_of_rest asking (returns enough (Nat.le_refl _))

section Settling
variable {id : Nat} {source : Producer ω ν ν} {tail : Noted ω (Sequence ν)} {store middle : Store ω ν}
  {node : Node} {q : Sequence ν} {result : Sequence ν × Store ω ν}

theorem Stored.settles (there : store.Stored node q) :
    Settles (fun fuel => rest fuel node store) (q, store) :=
  settles_of_succ ⟨0, fun fuel _ => there.rest_eq fuel⟩

theorem settles_run {elements : Array ν}
    (present : store.spines[node.spine]? = some ⟨elements, .suspended source tail⟩)
    (last : elements[node.index + 1]? = none)
    (extended : Settles (fun fuel => extend fuel node.spine source tail (store.begin node)) result) :
    Settles (fun fuel => rest fuel node store) result := by
  obtain ⟨enough, returns⟩ := extended
  exact settles_of_succ ⟨enough, fun fuel more =>
    (rest_suspended present last).trans (returns fuel more)⟩

theorem settles_yield {place : Node} {value : ν} {next : source.State}
    (extending : Extending M store place source tail)
    (move : (source.step source.state).value = .yield value next) :
    Settles (fun fuel => extend fuel place.spine source tail store) (some ⟨value, place⟩,
      (store.log (source.step source.state).notes).push place.spine value
        (.suspended { source with state := next } tail)) := by
  refine settles_of_succ ⟨0, fun fuel _ => (extend_yield move).trans ?_⟩
  simp only [(extending.log _).size_eq]

theorem settles_skip {next : source.State} (move : (source.step source.state).value = .skip next)
    (extended : Settles (fun fuel => extend fuel id { source with state := next } tail
      (store.log (source.step source.state).notes)) result) :
    Settles (fun fuel => extend fuel id source tail store) result := by
  obtain ⟨enough, returns⟩ := extended
  exact settles_of_succ ⟨enough, fun fuel more => (extend_skip move).trans (returns fuel more)⟩

theorem settles_force {resume : Sequence ν → source.State}
    (move : (source.step source.state).value = .force node resume)
    (answers : Settles (fun fuel => rest fuel node (store.log (source.step source.state).notes))
      (q, middle))
    (extended : Settles (fun fuel => extend fuel id { source with state := resume q } tail middle)
      result) :
    Settles (fun fuel => extend fuel id source tail store) result := by
  obtain ⟨enough, answers⟩ := answers
  obtain ⟨enough', returns⟩ := extended
  refine settles_of_succ ⟨max enough enough', fun fuel more => ?_⟩
  have answered : rest fuel node (store.log (source.step source.state).notes) = some (q, middle) :=
    answers fuel (by omega)
  apply (extend_force move).trans
  rw [answered]
  exact returns fuel (by omega)

theorem settles_done (move : (source.step source.state).value = .done) :
    Settles (fun fuel => extend fuel id source tail store) (tail.value,
      ((store.log (source.step source.state).notes).log tail.notes).setFrontier id
        (.closed tail.value)) :=
  settles_of_succ ⟨0, fun _ _ => extend_done move⟩

end Settling

/-- A producer that comes to rest extends its spine, if the older spines can be asked. -/
theorem extend_settles {σ : Type} {step : σ → Noted ω (Move ν σ ν)} {s : σ}
    {r : Option (ν × σ)} {place : Node} {tail : Noted ω (Sequence ν)} {store : Store ω ν}
    (extending : Extending M store place ⟨σ, s, step⟩ tail) (reached : Producer.Reaches M step s r)
    (older : ∀ (node : Node) (store : Store ω ν) (q : Sequence ν), node.spine < place.spine →
      Asking M store node → M.after node = some q →
        ∃ store', Settles (fun fuel => rest fuel node store) (q, store')) :
    ∃ result, Settles (fun fuel => extend fuel place.spine ⟨σ, s, step⟩ tail store) result := by
  induction reached generalizing store with
  | yield move => exact ⟨_, settles_yield extending move⟩
  | done move => exact ⟨_, settles_done move⟩
  | @skip s next r move later ih =>
    obtain ⟨result, settles⟩ := ih ((extending.log (step s).notes).skip move)
    exact ⟨result, settles_skip move settles⟩
  | @force s node resume q r move follows later ih =>
    have logged := extending.log (step s).notes
    obtain ⟨before, asking⟩ := logged.asking move
    obtain ⟨middle, answers⟩ := older node _ q before asking follows
    obtain ⟨result, settles⟩ := ih (logged.resume move (found_of_settles asking answers))
    exact ⟨result, settles_force move answers settles⟩

theorem rest_settles {node : Node} {store : Store ω ν} {q : Sequence ν}
    (asking : Asking M store node) (follows : M.after node = some q) :
    ∃ store', Settles (fun fuel => rest fuel node store) (q, store') := by
  obtain ⟨id, same⟩ : ∃ id, id = node.spine := ⟨_, rfl⟩
  induction id using Nat.strongRecOn generalizing node store q with
  | ind id older =>
    rcases stored_or_suspended store node with ⟨q', there⟩ | ⟨elements, source, tail, present, beyond⟩
    · cases (asking.found_of_stored there).stands.symm.trans follows
      exact ⟨store, there.settles⟩
    · obtain ⟨extending, -⟩ := asking.extending present (asking.last present beyond)
      obtain ⟨r, reached, -⟩ := extending.continues.here.mp follows
      have answers : ∀ (node' : Node) (store : Store ω ν) (q : Sequence ν),
          node'.spine < node.spine → Asking M store node' → M.after node' = some q →
            ∃ store', Settles (fun fuel => rest fuel node' store) (q, store') :=
        fun node' store q before asking follows =>
          older node'.spine (same ▸ before) asking follows rfl
      obtain ⟨⟨q', store'⟩, extended⟩ := extend_settles extending reached answers
      have settles := settles_run present beyond extended
      cases (found_of_settles asking settles).stands.symm.trans follows
      exact ⟨store', settles⟩

section Rules
variable {σ : Type} {step : σ → Noted ω (Move ν σ ν)} {place : Node} {tail : Noted ω (Sequence ν)}

/-- How an extension of a spine ends: its producer has come to a state in which it yields, or in which
it is done. -/
inductive Halts (step : σ → Noted ω (Move ν σ ν)) (place : Node) (tail : Noted ω (Sequence ν))
    (s : σ) (store : Store ω ν) : Sequence ν → Store ω ν → Prop
  | yield {value : ν} {next : σ} (move : (step s).value = .yield value next) :
      Halts step place tail s store (some ⟨value, place⟩)
        ((store.log (step s).notes).push place.spine value (.suspended ⟨σ, next, step⟩ tail))
  | done (move : (step s).value = .done) :
      Halts step place tail s store tail.value
        (((store.log (step s).notes).log tail.notes).setFrontier place.spine (.closed tail.value))

/-- What skips keep, and looks behind older nodes, holds where an extension ends. -/
theorem halts_of_extend {J : σ → Store ω ν → Prop} {fuel : Nat} {s : σ} {store store' : Store ω ν}
    {q : Sequence ν} (extending : Extending M store place ⟨σ, s, step⟩ tail) (holds : J s store)
    (skip : ∀ s store next, J s store → (step s).value = .skip next →
      J next (store.log (step s).notes))
    (force : ∀ s store node resume fuel q store', J s store →
      (step s).value = .force node resume → node.spine < place.spine →
      Asking M (store.log (step s).notes) node →
      rest fuel node (store.log (step s).notes) = some (q, store') → J (resume q) store')
    (result : extend fuel place.spine ⟨σ, s, step⟩ tail store = some (q, store')) :
    ∃ t store₁, J t store₁ ∧ Extending M store₁ place ⟨σ, t, step⟩ tail ∧
      Halts step place tail t store₁ q store' := by
  induction fuel generalizing s store with
  | zero => simp [extend] at result
  | succ fuel ih =>
    have logged := extending.log (step s).notes
    cases move : (step s).value with
    | yield value next =>
      rw [extend_yield move] at result
      simp only [logged.size_eq, Option.some.injEq, Prod.mk.injEq] at result
      obtain ⟨rfl, rfl⟩ := result
      exact ⟨s, store, holds, extending, .yield move⟩
    | skip next =>
      rw [extend_skip move] at result
      exact ih (logged.skip move) (skip s store next holds move) result
    | force node resume =>
      rw [extend_force move] at result
      obtain ⟨older, asking⟩ := logged.asking move
      split at result
      · cases result
      · next q' middle answered =>
        have answer := found_of_rest asking answered
        exact ih (logged.resume move answer)
          (force s store node resume fuel q' middle holds move older asking answered) result
    | done =>
      rw [extend_done move] at result
      cases result
      exact ⟨s, store, holds, extending, .done move⟩

end Rules

end DemandLex.Store
