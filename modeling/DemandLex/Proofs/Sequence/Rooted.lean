import DemandLex.Proofs.Sequence.Steady

/-! Handles that show what stands in the store. Whatever a program makes or forces, the handles that it
gets, and those that the store keeps behind its spines, show the elements at their nodes. So a node
has one handle, and two sequences that come to one node are one from there on. -/

namespace DemandLex

variable {ω ν α β : Type} {store store' : Store ω ν}

namespace Store

def element? (store : Store ω ν) (node : Node) : Option ν :=
  store.spines[node.spine]?.bind fun spine => spine.elements[node.index]?

structure Carries (store store' : Store ω ν) : Prop where
  elements (node : Node) (value : ν) :
    store.element? node = some value → store'.element? node = some value
  spines : store.spines.size ≤ store'.spines.size

theorem Carries.of_spines_eq (same : store'.spines = store.spines) : store.Carries store' := by
  refine ⟨fun node value there => ?_, by rw [same]⟩
  rwa [element?, same]

theorem Carries.refl : store.Carries store := .of_spines_eq rfl

theorem Carries.trans {last : Store ω ν} (first : store.Carries store')
    (second : store'.Carries last) : store.Carries last :=
  ⟨fun node value there => second.elements node value (first.elements node value there),
    first.spines.trans second.spines⟩

end Store

def Sequence.Stands (s : Sequence ν) (store : Store ω ν) : Prop :=
  ∀ cell, s = some cell → store.element? cell.node = some cell.value

def Frontier.Rooted (store : Store ω ν) : Frontier ω ν → Prop
  | .suspended _ tail => tail.value.Stands store
  | .running => True
  | .closed tail => tail.Stands store

def Store.Rooted (store : Store ω ν) : Prop :=
  ∀ (id : Nat) (spine : Spine ω ν), store.spines[id]? = some spine → spine.frontier.Rooted store

section Later
variable {s : Sequence ν} {frontier : Frontier ω ν}

theorem Sequence.stands_none : Sequence.Stands none store := fun _ found => by cases found

theorem Sequence.Stands.later (stands : s.Stands store) (carries : store.Carries store') :
    s.Stands store' := fun cell same => carries.elements _ _ (stands cell same)

theorem Sequence.Stands.has (stands : s.Stands store) : store.Has s := by
  intro cell same
  obtain ⟨spine, present, stored⟩ := Option.bind_eq_some_iff.mp (stands cell same)
  refine ⟨(Array.getElem?_eq_some_iff.mp present).1, ?_⟩
  rw [Store.size_eq present]
  exact (Array.getElem?_eq_some_iff.mp stored).1

theorem Frontier.Rooted.later (rooted : frontier.Rooted store) (carries : store.Carries store') :
    frontier.Rooted store' := by
  cases frontier with
  | suspended source tail => exact Sequence.Stands.later rooted carries
  | running => exact trivial
  | closed tail => exact Sequence.Stands.later rooted carries

/-- What stands in a store stands at its node in every meaning that the store fits. -/
theorem Sequence.Stands.meant {M : Meaning ν} {cell : Cell ν} (ready : store.Ready M)
    (stands : Sequence.Stands (some cell) store) : M cell.node = some (some cell) := by
  obtain ⟨spine, present, stored⟩ := Option.bind_eq_some_iff.mp (stands cell rfl)
  exact ready.fits.stored _ _ present _ _ stored

end Later

namespace Store

theorem rooted_empty : (empty : Store ω ν).Rooted := fun _ _ present => by cases present

section Update
variable {id : Nat} {spine : Spine ω ν} {f : Spine ω ν → Spine ω ν}

theorem Rooted.congr (rooted : store.Rooted) (same : store'.spines = store.spines) :
    store'.Rooted := fun id spine present =>
  (rooted id spine (same ▸ present)).later (.of_spines_eq same)

theorem carries_modified (found : store.spines[id]? = some spine)
    (changed : store'.spines = store.spines.modify id f)
    (more : ∀ (index : Nat) (value : ν), spine.elements[index]? = some value →
      (f spine).elements[index]? = some value) : store.Carries store' where
  elements node value there := by
    obtain ⟨spine', present, stored⟩ := Option.bind_eq_some_iff.mp there
    rw [element?, getElem?_modified found changed]
    by_cases same : node.spine = id
    · rw [same, found] at present
      cases present
      rw [if_pos same]
      exact more _ _ stored
    · rw [if_neg same, present]
      exact stored
  spines := by rw [changed, Array.size_modify]

theorem Rooted.modified (rooted : store.Rooted) (found : store.spines[id]? = some spine)
    (changed : store'.spines = store.spines.modify id f) (carries : store.Carries store')
    (frontier : (f spine).frontier.Rooted store') : store'.Rooted := by
  intro other spine' present
  rw [getElem?_modified found changed] at present
  by_cases same : other = id
  · rw [if_pos same] at present
    cases present
    exact frontier
  · rw [if_neg same] at present
    exact (rooted other spine' present).later carries

theorem carries_begin {node : Node} (present : store.spines[node.spine]? = some spine) :
    store.Carries (store.begin node) :=
  carries_modified present spines_begin fun _ _ there => there

theorem Rooted.begin {node : Node} (rooted : store.Rooted)
    (present : store.spines[node.spine]? = some spine) : (store.begin node).Rooted :=
  rooted.modified present spines_begin (carries_begin present) trivial

theorem Rooted.stands_stored {node : Node} {s : Sequence ν} (rooted : store.Rooted)
    (there : store.Stored node s) : s.Stands store := by
  cases there with
  | absent => exact Sequence.stands_none
  | element present stored =>
    rintro cell ⟨⟩
    rw [element?, present]
    exact stored
  | closed present => exact rooted _ _ present
  | running => exact Sequence.stands_none

theorem carries_pushed : store.Carries (store.pushed spine) where
  elements node value there := by
    obtain ⟨spine', present, stored⟩ := Option.bind_eq_some_iff.mp there
    have older := (Array.getElem?_eq_some_iff.mp present).1
    rw [element?, getElem?_pushed older, present]
    exact stored
  spines := by
    rw [size_spines_pushed]
    exact Nat.le_succ _

theorem Rooted.pushed (rooted : store.Rooted) (frontier : spine.frontier.Rooted store) :
    (store.pushed spine).Rooted := by
  intro id spine' present
  rcases pushed_cases present with ⟨-, present⟩ | ⟨rfl, rfl⟩
  · exact (rooted id spine' present).later carries_pushed
  · exact frontier.later carries_pushed

end Update

structure Roots (store : Store ω ν) (s : Sequence ν) (store' : Store ω ν) : Prop where
  carries : store.Carries store'
  rooted : store'.Rooted
  stands : s.Stands store'

theorem Roots.after {first : Store ω ν} {s : Sequence ν} (roots : store.Roots s store')
    (carries : first.Carries store) : first.Roots s store' :=
  ⟨carries.trans roots.carries, roots.rooted, roots.stands⟩

section Moves
variable {id : Nat} {tail : Noted ω (Sequence ν)}

theorem Rooted.push {source : Producer ω ν ν} (value : ν) (rooted : store.Rooted)
    (inside : id < store.spines.size) (kept : tail.value.Stands store) :
    store.Roots (some ⟨value, id, store.size id⟩)
      (store.push id value (.suspended source tail)) := by
  have found : store.spines[id]? = some store.spines[id] := Array.getElem?_eq_getElem inside
  have carries : store.Carries (store.push id value (.suspended source tail)) :=
    carries_modified found spines_push fun index value' there => by
      have inside := (Array.getElem?_eq_some_iff.mp there).1
      rw [Array.getElem?_push_lt inside, ← there, Array.getElem?_eq_getElem inside]
  refine ⟨carries, rooted.modified found spines_push carries (kept.later carries), ?_⟩
  rintro cell ⟨⟩
  rw [element?, getElem?_push found, size_eq found]
  exact Array.getElem?_push_size

theorem Rooted.close (rooted : store.Rooted) (inside : id < store.spines.size)
    (kept : tail.value.Stands store) :
    store.Roots tail.value (store.setFrontier id (.closed tail.value)) := by
  have found : store.spines[id]? = some store.spines[id] := Array.getElem?_eq_getElem inside
  have carries : store.Carries (store.setFrontier id (.closed tail.value)) :=
    carries_modified found spines_setFrontier fun _ _ there => there
  exact ⟨carries, rooted.modified found spines_setFrontier carries (kept.later carries),
    kept.later carries⟩

/-- What a look behind a node finds stands in the store, and so does what a spine is extended with. -/
theorem roots_of_eq_some (fuel : Nat) :
    (∀ {node : Node} {store store' : Store ω ν} {s : Sequence ν},
      rest fuel node store = some (s, store') → store.Rooted → store.Roots s store') ∧
    (∀ {id : Nat} {source : Producer ω ν ν} {tail : Noted ω (Sequence ν)}
      {store store' : Store ω ν} {s : Sequence ν},
      extend fuel id source tail store = some (s, store') → store.Rooted →
        id < store.spines.size → tail.value.Stands store → store.Roots s store') := by
  refine forcing_induction (P := fun _ _ store s store' => store.Rooted → store.Roots s store')
    (Q := fun _ id _ tail store s store' => store.Rooted → id < store.spines.size →
      tail.value.Stands store → store.Roots s store')
    ?stored ?run ?yield ?skip ?force ?done fuel
  case stored =>
    intro fuel node store s there rooted
    exact ⟨.refl, rooted, rooted.stands_stored there⟩
  case run =>
    intro fuel node store elements source tail s store' present last extended rooted
    have inside := (Array.getElem?_eq_some_iff.mp present).1
    have carries := carries_begin present
    exact (extended (rooted.begin present) (inside.trans_le carries.spines)
      ((rooted _ _ present).later carries)).after carries
  case yield =>
    intro fuel id source tail store value next move logged rooted inside kept
    have carries : store.Carries logged := .of_spines_eq rfl
    have rooted' : logged.Rooted := rooted.congr rfl
    exact (rooted'.push value inside (kept.later carries)).after carries
  case skip =>
    intro fuel id source tail store next s store' move extended rooted inside kept
    have carries : store.Carries (store.log (source.step source.state).notes) := .of_spines_eq rfl
    exact (extended (rooted.congr rfl) inside (kept.later carries)).after carries
  case force =>
    intro fuel id source tail store node resume q middle s store' move answered answers extended
      rooted inside kept
    have logged : store.Carries (store.log (source.step source.state).notes) := .of_spines_eq rfl
    obtain ⟨answer, rooted', -⟩ := answers (rooted.congr rfl)
    have carries := logged.trans answer
    exact (extended rooted' (inside.trans_le carries.spines) (kept.later carries)).after carries
  case done =>
    intro fuel id source tail store move rooted inside kept
    have carries : store.Carries ((store.log (source.step source.state).notes).log tail.notes) :=
      .of_spines_eq rfl
    have rooted' : ((store.log (source.step source.state).notes).log tail.notes).Rooted :=
      rooted.congr rfl
    exact (rooted'.close inside (kept.later carries)).after carries

end Moves

end Store

namespace Lazy

def Roots (x : Lazy ω ν α) (store : Store ω ν) (post : α → Store ω ν → Prop) : Prop :=
  ∀ fuel value store', x fuel store = some (value, store') →
    store.Carries store' ∧ store'.Rooted ∧ post value store'

section Roots
variable {x : Lazy ω ν α} {post : α → Store ω ν → Prop}

theorem roots_pure {value : α} (rooted : store.Rooted) (found : post value store) :
    (pure value : Lazy ω ν α).Roots store post := by
  rintro fuel value' store' ⟨⟩
  exact ⟨.refl, rooted, found⟩

theorem Roots.bind {f : α → Lazy ω ν β} {goal : β → Store ω ν → Prop} (roots : x.Roots store post)
    (next : ∀ value store', store.Carries store' → store'.Rooted → post value store' →
      (f value).Roots store' goal) : (x >>= f).Roots store goal := by
  intro fuel value store' result
  obtain ⟨first, store₁, came, result⟩ := bind_eq_some.mp result
  obtain ⟨carries, rooted, found⟩ := roots fuel first store₁ came
  obtain ⟨carries', rooted', found'⟩ :=
    next first store₁ carries rooted found fuel value store' result
  exact ⟨carries.trans carries', rooted', found'⟩

theorem Roots.map {f : α → β} (roots : x.Roots store post) :
    (f <$> x).Roots store fun _ _ => True := by
  rw [map_eq_pure_bind]
  exact roots.bind fun _ _ _ rooted _ => roots_pure rooted trivial

theorem roots_noted {step : Noted ω α} (rooted : store.Rooted) :
    (noted step : Lazy ω ν α).Roots store fun _ _ => True := by
  rintro fuel value store' ⟨⟩
  exact ⟨.of_spines_eq rfl, rooted.congr rfl, trivial⟩

theorem roots_iterate {step : β → Lazy ω ν (β ⊕ α)} {I : β → Store ω ν → Prop} {start : β}
    (round : ∀ state store, store.Rooted → I state store →
      (step state).Roots store fun r store' =>
        match r with
        | .inl next => I next store'
        | .inr result => post result store') (rooted : store.Rooted) (holds : I start store) :
    (iterate step start).Roots store post := by
  intro fuel value store' result
  refine post_of_iterate
    (I := fun state store₁ => store.Carries store₁ ∧ store₁.Rooted ∧ I state store₁)
    (P := fun value store₁ => store.Carries store₁ ∧ store₁.Rooted ∧ post value store₁) ?_
    ⟨.refl, rooted, holds⟩ result
  rintro state store₁ r store₂ ⟨carries, rooted, holds⟩ stepped
  obtain ⟨carries', rooted', found⟩ := round state store₁ rooted holds fuel r store₂ stepped
  cases r with
  | inl next => exact ⟨carries.trans carries', rooted', found⟩
  | inr value => exact ⟨carries.trans carries', rooted', found⟩

end Roots

end Lazy

namespace Sequence

variable {s t : Sequence ν}

section Making

theorem roots_shareBefore {source : Producer ω ν ν} {tail : Noted ω (Sequence ν)}
    (rooted : store.Rooted) (kept : tail.value.Stands store) :
    (source.shareBefore tail).Roots store fun t store' => t.Stands store' := by
  intro fuel t store' result
  have inside : store.spines.size < (store.pushed ⟨#[], .running⟩).spines.size := by
    rw [Store.size_spines_pushed]
    exact Nat.lt_succ_self _
  have begun : (store.pushed ⟨#[], .running⟩).Rooted := rooted.pushed trivial
  obtain ⟨carries, rooted', stands⟩ :=
    (Store.roots_of_eq_some fuel).2 result begun inside (kept.later Store.carries_pushed)
  exact ⟨Store.carries_pushed.trans carries, rooted', stands⟩

theorem roots_share {source : Producer ω ν ν} (rooted : store.Rooted) :
    source.share.Roots store fun t store' => t.Stands store' :=
  roots_shareBefore rooted stands_none

theorem roots_single {value : ν} {frontier : Frontier ω ν} (rooted : store.Rooted)
    (kept : frontier.Rooted store) :
    (single value frontier).Roots store fun s store' => s.Stands store' := by
  rintro fuel s store' ⟨⟩
  have rooted' : (store.pushed ⟨#[value], frontier⟩).Rooted := rooted.pushed kept
  refine ⟨Store.carries_pushed, rooted', ?_⟩
  rintro cell ⟨⟩
  exact congrArg (Option.bind · _) Store.getElem?_pushed_new

theorem roots_rest (rooted : store.Rooted) :
    (rest s : Lazy ω ν (Sequence ν)).Roots store fun t store' => t.Stands store' := by
  cases s with
  | none => exact Lazy.roots_pure rooted stands_none
  | some cell =>
    intro fuel t store' result
    obtain ⟨carries, rooted', stands⟩ := (Store.roots_of_eq_some fuel).1 result rooted
    exact ⟨carries, rooted', stands⟩

theorem roots_dropWhile {drop : ν → Noted ω Bool} (rooted : store.Rooted)
    (stands : s.Stands store) :
    (s.dropWhile drop).Roots store fun t store' => t.Stands store' := by
  refine Lazy.roots_iterate (I := fun s store => s.Stands store) ?_ rooted stands
  rintro (_ | cell) store rooted stands
  · exact Lazy.roots_pure rooted stands
  · apply (Lazy.roots_noted rooted).bind
    rintro (_ | _) store' carries rooted' -
    · exact Lazy.roots_pure rooted' (stands.later carries)
    · exact (roots_rest rooted').bind fun t _ _ rooted₂ stands' => Lazy.roots_pure rooted₂ stands'

end Making

section Asking

theorem roots_splitFirst (rooted : store.Rooted) :
    (s.splitFirst : Lazy ω ν _).Roots store fun _ _ => True := by
  cases s with
  | none => exact Lazy.roots_pure rooted trivial
  | some cell =>
    exact (roots_rest rooted).bind fun _ _ _ rooted' _ => Lazy.roots_pure rooted' trivial

theorem roots_foldM {f : α → ν → Noted ω α} {start : α} (rooted : store.Rooted) :
    (s.foldM start f).Roots store fun _ _ => True := by
  refine Lazy.roots_iterate (I := fun _ _ => True) ?_ rooted trivial
  rintro ⟨reduced, _ | cell⟩ store rooted -
  · exact Lazy.roots_pure rooted trivial
  · apply (Lazy.roots_noted rooted).bind
    intro next store' _ rooted' _
    exact (roots_rest rooted').bind fun _ _ _ rooted₂ _ => Lazy.roots_pure rooted₂ trivial

theorem roots_toList (rooted : store.Rooted) :
    (s.toList : Lazy ω ν (List ν)).Roots store fun _ _ => True :=
  (roots_foldM rooted).bind fun _ _ _ rooted' _ => Lazy.roots_pure rooted' trivial

theorem roots_iterateWhile {visit : α → ν → α × Bool} {count : Option Nat} {start : α}
    (rooted : store.Rooted) :
    (s.iterateWhile count start visit : Lazy ω ν α).Roots store fun _ _ => True := by
  refine Lazy.roots_iterate (I := fun _ _ => True) ?_ rooted trivial
  rintro ⟨state, _ | _ | left, _ | cell⟩ store rooted -
  case none.some | some.succ.some =>
    apply (roots_rest rooted).bind
    intro t store' _ rooted' _
    apply Lazy.roots_pure rooted'
    split <;> exact trivial
  all_goals exact Lazy.roots_pure rooted trivial

theorem roots_equal {same : ν → ν → Bool} (rooted : store.Rooted) :
    (s.equal same t : Lazy ω ν Bool).Roots store fun _ _ => True := by
  refine Lazy.roots_iterate (I := fun _ _ => True) ?_ rooted trivial
  rintro ⟨_ | left, _ | right⟩ store rooted -
  case some.some =>
    dsimp only
    split_ifs
    · exact Lazy.roots_pure rooted trivial
    · exact Lazy.roots_pure rooted trivial
    · apply (roots_rest rooted).bind
      intro s store₁ _ rooted₁ _
      exact (roots_rest rooted₁).bind fun _ _ _ rooted₂ _ => Lazy.roots_pure rooted₂ trivial
  all_goals exact Lazy.roots_pure rooted trivial

end Asking

section Reverse

theorem roots_prependAll (items : List ν) (rooted : store.Rooted) (stands : t.Stands store) :
    (items.foldlM (fun reversed value => prepend reversed value) t :
      Lazy ω ν (Sequence ν)).Roots store fun s store' => s.Stands store' := by
  induction items generalizing t store with
  | nil => exact Lazy.roots_pure rooted stands
  | cons item items ih =>
    rw [List.foldlM_cons]
    have kept : (Frontier.closed t : Frontier ω ν).Rooted store := stands
    exact (roots_single rooted kept).bind fun s _ _ rooted' stands' => ih rooted' stands'

theorem roots_reverse (rooted : store.Rooted) :
    (s.reverse : Lazy ω ν (Sequence ν)).Roots store fun t store' => t.Stands store' :=
  (roots_toList rooted).bind fun items _ _ rooted' _ => roots_prependAll items rooted' stands_none

end Reverse

end Sequence

end DemandLex
