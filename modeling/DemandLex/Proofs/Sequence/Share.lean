import DemandLex.Proofs.Sequence.Approximation
import DemandLex.Proofs.Sequence.Forcing

/-! A shared producer begins a new spine: the store then fits a larger meaning, in which the new
sequence has what the producer gives. -/

namespace DemandLex

universe u

variable {ω ν : Type}

theorem Frontier.Fits.extend {id index : Nat} {sizes sizes' : Nat → Nat}
    {frontier : Frontier ω ν} {M N : Meaning ν} (fits : frontier.Fits M id index sizes)
    (agree : M.Agree N (id + 1)) (descends : M.Descends id) (more : sizes ≤ sizes') :
    frontier.Fits N id index sizes' := by
  cases frontier with
  | suspended source tail =>
    obtain ⟨continues, grounded, within⟩ := fits
    exact ⟨continues.agree grounded agree descends, grounded.grow more, within.grow more⟩
  | running => exact trivial
  | closed tail =>
    exact ⟨(agree ⟨id, index⟩ (Nat.lt_succ_self id)).trans fits.1, fits.2.grow more⟩

namespace Store

variable {M : Meaning ν} {store store' : Store ω ν}

/-- A store in which no computation is under way. -/
structure Ready (store : Store ω ν) (M : Meaning ν) : Prop where
  fits : store.Fits M
  idle : store.Idle store.spines.size

def Has (store : Store ω ν) (s : Sequence ν) : Prop := s.Within store.spines.size store.size

/-- A store that a computation has left, with a meaning that says the same as before of all that was
there before. -/
structure Leaves (store : Store ω ν) (M : Meaning ν) (store' : Store ω ν) (M' : Meaning ν) :
    Prop where
  ready : store'.Ready M'
  agree : M.Agree M' store.spines.size
  spines : store.spines.size ≤ store'.spines.size
  sizes : store.size ≤ store'.size

theorem Leaves.refl (ready : store.Ready M) : store.Leaves M store M :=
  ⟨ready, fun _ _ => rfl, Nat.le_refl _, fun _ => Nat.le_refl _⟩

theorem Leaves.trans {last : Store ω ν} {M' M'' : Meaning ν} (first : store.Leaves M store' M')
    (second : store'.Leaves M' last M'') : store.Leaves M last M'' where
  ready := second.ready
  agree := first.agree.trans second.agree first.spines
  spines := Nat.le_trans first.spines second.spines
  sizes id := Nat.le_trans (first.sizes id) (second.sizes id)

section Leaves
variable {M' : Meaning ν} {s : Sequence ν} {values : List ν}

theorem Leaves.has (leaves : store.Leaves M store' M') (has : store.Has s) : store'.Has s :=
  (has.grow leaves.sizes).weaken leaves.spines

theorem Leaves.holds (leaves : store.Leaves M store' M') (ready : store.Ready M)
    (has : store.Has s) (holds : M.Holds s values) : M'.Holds s values :=
  holds.agree leaves.agree ready.fits.descends fun cell found => (has cell found).1

theorem Leaves.shown (leaves : store.Leaves M store' M') (ready : store.Ready M)
    (has : store.Has s) (n : Nat) : M'.shown n s = M.shown n s :=
  Meaning.shown_agree leaves.agree ready.fits.descends fun cell found => (has cell found).1

theorem Leaves.denotes {c : Nat → Listing ν} (leaves : store.Leaves M store' M')
    (ready : store.Ready M) (has : store.Has s) (denotes : M.Denotes s c) : M'.Denotes s c := by
  simpa only [Meaning.Denotes, leaves.shown ready has] using denotes

end Leaves

theorem Ready.asking_of_lt {node : Node} (ready : store.Ready M)
    (inside : node.spine < store.spines.size) (computed : node.index < store.size node.spine) :
    Asking M store node :=
  ⟨ready.fits, ready.idle.weaken inside, computed⟩

theorem Ready.asking (ready : store.Ready M) {cell : Cell ν} (has : store.Has (some cell)) :
    Asking M store cell.node :=
  ready.asking_of_lt (has cell rfl).1 (has cell rfl).2

theorem Found.leaves {place : Node} {s : Sequence ν} (found : Found M place store s store')
    (ready : store.Ready M) (inside : place.spine < store.spines.size) :
    store.Leaves M store' M ∧ store'.Has s := by
  refine ⟨⟨⟨found.fits, ?_⟩, fun _ _ => rfl, Nat.le_of_eq found.grows.spines.symm,
    found.grows.sizes⟩, ?_⟩
  · intro id spine older present
    by_cases newer : place.spine + 1 ≤ id
    · rw [found.grows.same id newer] at present
      exact ready.idle id spine (found.grows.spines ▸ older) present
    · exact found.idle id spine (by omega) present
  · apply found.within.weaken
    rw [found.grows.spines]
    exact inside

section Push
variable {N : Meaning ν} {spine : Spine ω ν}

def pushed (store : Store ω ν) (spine : Spine ω ν) : Store ω ν :=
  { store with spines := store.spines.push spine }

theorem size_spines_pushed : (store.pushed spine).spines.size = store.spines.size + 1 :=
  Array.size_push ..

theorem getElem?_pushed {id : Nat} (older : id < store.spines.size) :
    (store.pushed spine).spines[id]? = store.spines[id]? := by
  rw [pushed, Array.getElem?_push_lt older, Array.getElem?_eq_getElem older]

theorem getElem?_pushed_new : (store.pushed spine).spines[store.spines.size]? = some spine :=
  Array.getElem?_push_size

theorem pushed_cases {id : Nat} {spine' : Spine ω ν}
    (present : (store.pushed spine).spines[id]? = some spine') :
    (id < store.spines.size ∧ store.spines[id]? = some spine') ∨
      (id = store.spines.size ∧ spine' = spine) := by
  by_cases older : id < store.spines.size
  · rw [getElem?_pushed older] at present
    exact Or.inl ⟨older, present⟩
  · have inside := (Array.getElem?_eq_some_iff.mp present).1
    rw [size_spines_pushed] at inside
    obtain rfl : id = store.spines.size := by omega
    exact Or.inr ⟨rfl, Option.some_inj.mp (present.symm.trans getElem?_pushed_new)⟩

theorem size_le_pushed : store.size ≤ (store.pushed spine).size := by
  intro id
  by_cases older : id < store.spines.size
  · have unchanged : (store.pushed spine).size id = store.size id := by
      rw [size, size, getElem?_pushed older]
    exact Nat.le_of_eq unchanged.symm
  · rw [size, Array.getElem?_eq_none (Nat.le_of_not_lt older)]
    exact Nat.zero_le _

theorem Fits.pushed (fits : store.Fits M) (agree : M.Agree N store.spines.size)
    (descends : N.Descends (store.spines.size + 1))
    (stored : ∀ (index : Nat) (value : ν), spine.elements[index]? = some value →
      N ⟨store.spines.size, index⟩ = some (some ⟨value, store.spines.size, index⟩))
    (frontier : spine.frontier.Fits N store.spines.size spine.elements.size
      (store.pushed spine).size) : (store.pushed spine).Fits N := by
  refine ⟨by rwa [size_spines_pushed], ?_, ?_⟩
  · intro id spine' present index value there
    rcases pushed_cases present with ⟨older, present⟩ | ⟨rfl, rfl⟩
    · rw [agree _ older]
      exact fits.stored id spine' present index value there
    · exact stored index value there
  · intro id spine' present
    rcases pushed_cases present with ⟨older, present⟩ | ⟨rfl, rfl⟩
    · exact (fits.frontier id spine' present).extend (agree.weaken older)
        (fits.descends.weaken (Nat.le_of_lt older)) size_le_pushed
    · exact frontier

end Push

theorem ready_empty : (empty : Store ω ν).Ready fun _ => none := by
  refine ⟨⟨?_, ?_, ?_⟩, ?_⟩
  · intro node cell older
    cases older
  · intro id spine present
    cases present
  · intro id spine present
    cases present
  · intro id spine older
    cases older

end Store

namespace Producer

variable {M : Meaning ν} {store : Store ω ν} {source : Producer ω ν ν}
  {tail : Noted ω (Sequence ν)}

noncomputable def meaningWith (M : Meaning ν) (store : Store ω ν) (source : Producer ω ν ν)
    (tail : Noted ω (Sequence ν)) : Meaning ν :=
  extend M store.spines.size source.step source.state tail.value

/-- What a producer to be shared has to keep to: it asks sequences of the store only, and so does
its tail. -/
structure Shareable (store : Store ω ν) (source : Producer ω ν ν)
    (tail : Noted ω (Sequence ν)) : Prop where
  grounded : Grounded store.spines.size source.step store.size source.state
  tail : store.Has tail.value

theorem shareable_of_grounded
    (grounded : Grounded store.spines.size source.step store.size source.state) :
    Shareable store source (pure none) := ⟨grounded, Sequence.within_none⟩

theorem extending_pushed (ready : store.Ready M) (shareable : Shareable store source tail) :
    Store.Extending (meaningWith M store source tail) (store.pushed ⟨#[], .running⟩)
      ⟨store.spines.size, 0⟩ source tail := by
  obtain ⟨fits, idle⟩ := ready
  have agree : M.Agree (meaningWith M store source tail) store.spines.size := agree_extend
  refine ⟨fits.pushed agree (descends_extend fits.descends shareable.tail) ?_ trivial, ?_,
    ⟨#[], Store.getElem?_pushed_new, rfl⟩, continues_extend shareable.grounded fits.descends,
    shareable.grounded.grow Store.size_le_pushed, shareable.tail.grow Store.size_le_pushed⟩
  · intro index value there
    simp at there
  · intro id spine older present
    rw [Store.getElem?_pushed older] at present
    exact idle id spine older present

structure Shared (M : Meaning ν) (store : Store ω ν) (source : Producer ω ν ν)
    (tail : Noted ω (Sequence ν)) (s : Sequence ν) (store' : Store ω ν) (M' : Meaning ν) :
    Prop where
  leaves : store.Leaves M store' M'
  has : store'.Has s
  holds (values values' : List ν) : Gives M source.step source.state values →
    M.Holds tail.value values' → M'.Holds s (values ++ values')
  begins (values : List ν) : tail.value = none → M'.Begins s values →
    ∃ last, Starts M source.step source.state values last
  denotes : M'.Denotes s fun n =>
    (given M source.step n source.state).append (M.shown n tail.value)

theorem shared_of_eq_some {fuel : Nat} {s : Sequence ν} {store' : Store ω ν}
    (ready : store.Ready M) (shareable : Shareable store source tail)
    (result : source.shareBefore tail fuel store = some (s, store')) :
    Shared M store source tail s store' (meaningWith M store source tail) := by
  have extending := extending_pushed ready shareable
  have found := Store.found_of_extend extending result
  have agree : M.Agree (meaningWith M store source tail) store.spines.size := agree_extend
  have descends := ready.fits.descends
  have spines : store'.spines.size = store.spines.size + 1 :=
    found.grows.spines.trans Store.size_spines_pushed
  refine ⟨⟨⟨found.fits, spines ▸ found.idle⟩, agree, by omega, ?_⟩, ?_, ?_, ?_, ?_⟩
  · exact fun id => Nat.le_trans (Store.size_le_pushed id) (found.grows.sizes id)
  · rw [Store.Has, spines]
    exact found.within
  · intro values values' gives rest
    exact extending.continues.holds (gives.agree shareable.grounded agree descends)
      (rest.agree agree descends fun cell same => (shareable.tail cell same).1) found.stands
  · intro values none begins
    have continues := extending.continues
    rw [none] at continues
    obtain ⟨last, start⟩ := continues.starts found.stands begins
    exact ⟨last, (start.agree shareable.grounded agree.symm (agree.descends descends)).1⟩
  · have limit := extending.continues.sameLimit found.stands
    have tail' (n : Nat) : (meaningWith M store source tail).shown n tail.value =
        M.shown n tail.value :=
      Meaning.shown_agree agree descends fun cell same => (shareable.tail cell same).1
    simpa only [Meaning.Denotes, given_agree shareable.grounded agree descends, tail'] using limit

theorem shareBefore_settles {r : Option (ν × source.State)} (ready : store.Ready M)
    (shareable : Shareable store source tail)
    (reached : Reaches M source.step source.state r) :
    ∃ result, Store.Settles (fun fuel => source.shareBefore tail fuel store) result := by
  have extending := extending_pushed ready shareable
  have agree : M.Agree (meaningWith M store source tail) store.spines.size := agree_extend
  refine Store.extend_settles extending
    (reached.agree shareable.grounded agree ready.fits.descends) ?_
  intro node store q older asking follows
  exact Store.rest_settles asking follows

end Producer

end DemandLex
