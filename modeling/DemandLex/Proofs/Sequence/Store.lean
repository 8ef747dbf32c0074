import DemandLex.Proofs.Sequence.Extension

/-! A store that fits a meaning goes on to fit it whatever is forced, and what is forced is what the
meaning says. So the elements that a sequence shows do not depend on what has been computed. -/

namespace DemandLex

variable {ω ν : Type}

def Frontier.Fits (M : Meaning ν) (id index : Nat) (sizes : Nat → Nat) : Frontier ω ν → Prop
  | .suspended source tail =>
    Producer.Continues M id index source.step source.state tail.value ∧
      Producer.Grounded id source.step sizes source.state ∧ tail.value.Within id sizes
  | .running => True
  | .closed tail => M ⟨id, index⟩ = some tail ∧ tail.Within id sizes

theorem Frontier.Fits.grow {M : Meaning ν} {id index : Nat} {sizes sizes' : Nat → Nat}
    {frontier : Frontier ω ν} (fits : frontier.Fits M id index sizes) (more : sizes ≤ sizes') :
    frontier.Fits M id index sizes' := by
  cases frontier with
  | suspended source tail =>
    obtain ⟨continues, grounded, within⟩ := fits
    exact ⟨continues, grounded.grow more, within.grow more⟩
  | running => exact trivial
  | closed tail => exact ⟨fits.1, fits.2.grow more⟩

namespace Store

structure Fits (store : Store ω ν) (M : Meaning ν) : Prop where
  descends : M.Descends store.spines.size
  stored (id : Nat) (spine : Spine ω ν) : store.spines[id]? = some spine →
    ∀ (index : Nat) (value : ν), spine.elements[index]? = some value →
      M ⟨id, index⟩ = some (some ⟨value, id, index⟩)
  frontier (id : Nat) (spine : Spine ω ν) : store.spines[id]? = some spine →
    spine.frontier.Fits M id spine.elements.size store.size

def Idle (store : Store ω ν) (bound : Nat) : Prop :=
  ∀ (id : Nat) (spine : Spine ω ν), id < bound → store.spines[id]? = some spine →
    spine.frontier ≠ .running

/-- Only spines before `bound` change, and none loses elements. -/
structure Grows (store store' : Store ω ν) (bound : Nat) : Prop where
  spines : store'.spines.size = store.spines.size
  same (id : Nat) : bound ≤ id → store'.spines[id]? = store.spines[id]?
  sizes : store.size ≤ store'.size

structure Found (M : Meaning ν) (place : Node) (store : Store ω ν) (s : Sequence ν)
    (store' : Store ω ν) : Prop where
  stands : M place = some s
  fits : store'.Fits M
  idle : store'.Idle (place.spine + 1)
  grows : store.Grows store' (place.spine + 1)
  within : s.Within (place.spine + 1) store'.size

section Update
variable {M : Meaning ν} {store store' : Store ω ν} {id bound bound' : Nat} {spine : Spine ω ν}
  {f : Spine ω ν → Spine ω ν}

theorem spines_setFrontier {frontier : Frontier ω ν} :
    (store.setFrontier id frontier).spines =
      store.spines.modify id fun s => { s with frontier := frontier } := rfl

theorem spines_begin {node : Node} : (store.begin node).spines =
    store.spines.modify node.spine fun s => { s with frontier := .running } := rfl

theorem spines_push {value : ν} {frontier : Frontier ω ν} :
    (store.push id value frontier).spines =
      store.spines.modify id fun s => ⟨s.elements.push value, frontier⟩ := rfl

theorem size_eq (found : store.spines[id]? = some spine) :
    store.size id = spine.elements.size := by
  rw [size, found]

theorem toList_notes_log {notes : List ω} :
    (store.log notes).notes.toList = store.notes.toList ++ notes := by
  simp [log]

theorem size_congr (same : store'.spines = store.spines) : store'.size = store.size := by
  funext id
  rw [size, size, same]

theorem Fits.congr (fits : store.Fits M) (same : store'.spines = store.spines) :
    store'.Fits M := by
  refine ⟨same ▸ fits.descends, same ▸ fits.stored, ?_⟩
  rw [same, size_congr same]
  exact fits.frontier

theorem Idle.congr (idle : store.Idle bound) (same : store'.spines = store.spines) :
    store'.Idle bound := by
  rw [Idle, same]
  exact idle

theorem Idle.weaken (idle : store.Idle bound) (fewer : bound' ≤ bound) : store.Idle bound' :=
  fun id spine older found => idle id spine (Nat.lt_of_lt_of_le older fewer) found

theorem Grows.of_spines_eq (same : store'.spines = store.spines) : store.Grows store' bound :=
  ⟨by rw [same], fun _ _ => by rw [same], fun _ => Nat.le_of_eq (by rw [size_congr same])⟩

theorem Grows.weaken (grows : store.Grows store' bound) (larger : bound ≤ bound') :
    store.Grows store' bound' :=
  ⟨grows.spines, fun id newer => grows.same id (Nat.le_trans larger newer), grows.sizes⟩

theorem Grows.trans {last : Store ω ν} (first : store.Grows store' bound)
    (second : store'.Grows last bound') (fewer : bound ≤ bound') : store.Grows last bound' where
  spines := second.spines.trans first.spines
  same id newer := (second.same id newer).trans (first.same id (Nat.le_trans fewer newer))
  sizes id := Nat.le_trans (first.sizes id) (second.sizes id)

theorem getElem?_modified (found : store.spines[id]? = some spine)
    (changed : store'.spines = store.spines.modify id f) (other : Nat) :
    store'.spines[other]? = if other = id then some (f spine) else store.spines[other]? := by
  rw [changed, Array.getElem?_modify]
  by_cases same : other = id
  · rw [if_pos same, if_pos same.symm, same, found]
    rfl
  · rw [if_neg same, if_neg (Ne.symm same)]

section Same
variable {elements : Array ν} {frontier frontier' : Frontier ω ν}

theorem getElem?_setFrontier (found : store.spines[id]? = some ⟨elements, frontier⟩) :
    (store.setFrontier id frontier').spines[id]? = some ⟨elements, frontier'⟩ :=
  (getElem?_modified found spines_setFrontier id).trans (if_pos rfl)

theorem getElem?_begin {node : Node}
    (found : store.spines[node.spine]? = some ⟨elements, frontier⟩) :
    (store.begin node).spines[node.spine]? = some ⟨elements, .running⟩ :=
  (getElem?_modified found spines_begin node.spine).trans (if_pos rfl)

theorem getElem?_push {value : ν} (found : store.spines[id]? = some ⟨elements, frontier⟩) :
    (store.push id value frontier').spines[id]? = some ⟨elements.push value, frontier'⟩ :=
  (getElem?_modified found spines_push id).trans (if_pos rfl)

end Same

theorem Grows.modified (found : store.spines[id]? = some spine)
    (changed : store'.spines = store.spines.modify id f)
    (more : spine.elements.size ≤ (f spine).elements.size) : store.Grows store' (id + 1) where
  spines := by rw [changed, Array.size_modify]
  same other newer := by
    rw [getElem?_modified found changed, if_neg (Nat.ne_of_gt newer)]
  sizes other := by
    by_cases same : other = id
    · cases same
      have found' := getElem?_modified found changed id
      rw [if_pos rfl] at found'
      rw [size_eq found, size_eq found']
      exact more
    · have unchanged : store'.size other = store.size other := by
        rw [size, size, getElem?_modified found changed, if_neg same]
      exact Nat.le_of_eq unchanged.symm

theorem Fits.modified (fits : store.Fits M) (found : store.spines[id]? = some spine)
    (changed : store'.spines = store.spines.modify id f)
    (more : spine.elements.size ≤ (f spine).elements.size)
    (stored : ∀ index value, (f spine).elements[index]? = some value →
      M ⟨id, index⟩ = some (some ⟨value, id, index⟩))
    (frontier : (f spine).frontier.Fits M id (f spine).elements.size store.size) :
    store'.Fits M := by
  have grows := Grows.modified found changed more
  refine ⟨grows.spines ▸ fits.descends, ?_, ?_⟩
  · intro other spine' found'
    rw [getElem?_modified found changed] at found'
    by_cases same : other = id
    · rw [if_pos same, Option.some_inj] at found'
      cases found'
      cases same
      exact stored
    · rw [if_neg same] at found'
      exact fits.stored other spine' found'
  · intro other spine' found'
    rw [getElem?_modified found changed] at found'
    by_cases same : other = id
    · rw [if_pos same, Option.some_inj] at found'
      cases found'
      cases same
      exact frontier.grow grows.sizes
    · rw [if_neg same] at found'
      exact (fits.frontier other spine' found').grow grows.sizes

theorem Idle.modified (idle : store.Idle id) (found : store.spines[id]? = some spine)
    (changed : store'.spines = store.spines.modify id f) (still : (f spine).frontier ≠ .running) :
    store'.Idle (id + 1) := by
  intro other spine' older found'
  rw [getElem?_modified found changed] at found'
  by_cases same : other = id
  · rw [if_pos same, Option.some_inj] at found'
    cases found'
    exact still
  · rw [if_neg same] at found'
    exact idle other spine' (by omega) found'

end Update

section Forcing
variable {M : Meaning ν}

theorem Found.of_same {store store' : Store ω ν} {place : Node} {s : Sequence ν}
    (stands : M place = some s) (fits : store.Fits M) (idle : store.Idle (place.spine + 1))
    (same : store'.spines = store.spines) (within : s.Within (place.spine + 1) store.size) :
    Found M place store s store' :=
  ⟨stands, fits.congr same, idle.congr same, .of_spines_eq same, by
    rw [size_congr same]
    exact within⟩

/-- What an extension of a spine relies on: the spine is being computed, and its producer goes on
with it. -/
structure Extending (M : Meaning ν) (store : Store ω ν) (place : Node) (source : Producer ω ν ν)
    (tail : Noted ω (Sequence ν)) : Prop where
  fits : store.Fits M
  idle : store.Idle place.spine
  running : ∃ elements, store.spines[place.spine]? = some ⟨elements, .running⟩ ∧
    elements.size = place.index
  continues : Producer.Continues M place.spine place.index source.step source.state tail.value
  grounded : Producer.Grounded place.spine source.step store.size source.state
  within : tail.value.Within place.spine store.size

structure Asking (M : Meaning ν) (store : Store ω ν) (node : Node) : Prop where
  fits : store.Fits M
  idle : store.Idle (node.spine + 1)
  computed : node.index < store.size node.spine

theorem Extending.log {store : Store ω ν} {place : Node} {source : Producer ω ν ν}
    {tail : Noted ω (Sequence ν)} (extending : Extending M store place source tail)
    (notes : List ω) : Extending M (store.log notes) place source tail := by
  obtain ⟨fits, idle, running, continues, grounded, within⟩ := extending
  exact ⟨fits.congr rfl, idle.congr rfl, running, continues, grounded, within⟩

section Moves
variable {store : Store ω ν} {place : Node} {source : Producer ω ν ν}
  {tail : Noted ω (Sequence ν)}

theorem Extending.found_yield {value : ν} {next : source.State}
    (extending : Extending M store place source tail)
    (move : (source.step source.state).value = .yield value next) :
    Found M place store (some ⟨value, place⟩)
      (store.push place.spine value (.suspended { source with state := next } tail)) := by
  obtain ⟨fits, idle, ⟨elements, found, count⟩, continues, grounded, within⟩ := extending
  have reached : Producer.Reaches M source.step source.state (some (value, next)) := .yield move
  have stands : M place = some (some ⟨value, place⟩) := continues.here.mpr ⟨_, reached, rfl⟩
  have more : elements.size ≤ (elements.push value).size := by simp
  have grows : store.Grows (store.push place.spine value
      (.suspended { source with state := next } tail)) (place.spine + 1) :=
    .modified found spines_push more
  have keeps := grounded.keeps
  rw [move] at keeps
  refine ⟨stands, fits.modified found spines_push more ?_ ?_, idle.modified found spines_push ?_,
    grows, ?_⟩
  · intro index other present
    rw [Array.getElem?_push] at present
    split at present
    · next last =>
      cases present
      rw [last, count]
      exact stands
    · exact fits.stored _ _ found index other present
  · rw [Array.size_push, count]
    exact ⟨continues.behind reached, keeps, within⟩
  · intro stopped
    cases stopped
  · intro cell same
    cases same
    refine ⟨Nat.lt_succ_self _, ?_⟩
    rw [size_eq (getElem?_push found), Array.size_push, count]
    exact Nat.lt_succ_self _

theorem Extending.found_done (extending : Extending M store place source tail)
    (move : (source.step source.state).value = .done) :
    Found M place store tail.value
      ((store.log tail.notes).setFrontier place.spine (.closed tail.value)) := by
  obtain ⟨fits, idle, ⟨elements, found, count⟩, continues, grounded, within⟩ := extending
  have stands : M place = some tail.value := continues.here.mpr ⟨none, .done move, rfl⟩
  have grows : store.Grows ((store.log tail.notes).setFrontier place.spine (.closed tail.value))
      (place.spine + 1) := .modified found spines_setFrontier (Nat.le_refl _)
  refine ⟨stands, fits.modified found spines_setFrontier (Nat.le_refl _) ?_ ?_,
    idle.modified found spines_setFrontier ?_, grows, ?_⟩
  · intro index value present
    exact fits.stored _ _ found index value present
  · rw [count]
    exact ⟨stands, within⟩
  · intro stopped
    cases stopped
  · exact (within.grow grows.sizes).weaken (Nat.le_succ _)

theorem Extending.skip {next : source.State} (extending : Extending M store place source tail)
    (move : (source.step source.state).value = .skip next) :
    Extending M store place { source with state := next } tail := by
  obtain ⟨fits, idle, running, continues, grounded, within⟩ := extending
  have keeps := grounded.keeps
  rw [move] at keeps
  exact ⟨fits, idle, running, continues.congr fun r => Producer.reaches_skip move, keeps, within⟩

theorem Extending.asking {node : Node} {resume : Sequence ν → source.State}
    (extending : Extending M store place source tail)
    (move : (source.step source.state).value = .force node resume) :
    node.spine < place.spine ∧ Asking M store node := by
  have keeps := extending.grounded.keeps
  rw [move] at keeps
  obtain ⟨older, computed, -⟩ := keeps
  exact ⟨older, extending.fits, extending.idle.weaken older, computed⟩

theorem Extending.resume {node : Node} {resume : Sequence ν → source.State} {q : Sequence ν}
    {store' : Store ω ν} (extending : Extending M store place source tail)
    (move : (source.step source.state).value = .force node resume)
    (answer : Found M ⟨node.spine, node.index + 1⟩ store q store') :
    Extending M store' place { source with state := resume q } tail := by
  obtain ⟨older, -⟩ := extending.asking move
  obtain ⟨fits, idle, ⟨elements, found, count⟩, continues, grounded, within⟩ := extending
  have keeps := grounded.keeps
  rw [move] at keeps
  refine ⟨answer.fits, ?_, ⟨elements, (answer.grows.same _ older).trans found, count⟩,
    continues.congr fun r => Producer.reaches_force move answer.stands, ?_,
    within.grow answer.grows.sizes⟩
  · intro id spine before present
    by_cases newer : node.spine + 1 ≤ id
    · exact idle id spine before ((answer.grows.same id newer).symm.trans present)
    · exact answer.idle id spine (by simpa using newer) present
  · exact keeps.2.2 _ answer.grows.sizes q (answer.within.weaken older)

end Moves

end Forcing

end Store

end DemandLex
