import DemandLex.Proofs.Sequence.Steady

/-! What is forced of older spines does not depend on the newer ones: the same looks find the same and
leave the same in two stores that differ in newer spines only. -/

namespace DemandLex.Store

variable {ω ν : Type} {M : Meaning ν} {store store' other other' : Store ω ν} {bound id : Nat}

/-- Two stores hold the same in the spines before one, and have taken the same notes. -/
structure SameBelow (store : Store ω ν) (bound : Nat) (other : Store ω ν) : Prop where
  spines (id : Nat) : id < bound → store.spines[id]? = other.spines[id]?
  notes : store.notes = other.notes

namespace SameBelow

theorem trans {last : Store ω ν} (first : store.SameBelow bound other)
    (second : other.SameBelow bound last) : store.SameBelow bound last :=
  ⟨fun id older => (first.spines id older).trans (second.spines id older),
    first.notes.trans second.notes⟩

theorem refl (store : Store ω ν) : store.SameBelow bound store := ⟨fun _ _ => rfl, rfl⟩

theorem symm (same : store.SameBelow bound other) : other.SameBelow bound store :=
  ⟨fun id older => (same.spines id older).symm, same.notes.symm⟩

theorem weaken {bound' : Nat} (same : store.SameBelow bound other) (fewer : bound' ≤ bound) :
    store.SameBelow bound' other :=
  ⟨fun id older => same.spines id (older.trans_le fewer), same.notes⟩

theorem size (same : store.SameBelow bound other) (older : id < bound) :
    store.size id = other.size id := by
  rw [Store.size, Store.size, same.spines id older]

theorem log (same : store.SameBelow bound other) (notes : List ω) :
    (store.log notes).SameBelow bound (other.log notes) :=
  ⟨same.spines, by rw [Store.log, Store.log, same.notes]⟩

theorem modified (same : store.SameBelow bound other) (id : Nat) (f : Spine ω ν → Spine ω ν)
    (changed : store'.spines = store.spines.modify id f)
    (changed' : other'.spines = other.spines.modify id f)
    (notes : store'.notes = store.notes) (notes' : other'.notes = other.notes) :
    store'.SameBelow bound other' := by
  refine ⟨fun id' older => ?_, by rw [notes, notes', same.notes]⟩
  rw [changed, changed', Array.getElem?_modify, Array.getElem?_modify, same.spines id' older]

theorem begin (same : store.SameBelow bound other) (node : Node) :
    (store.begin node).SameBelow bound (other.begin node) :=
  same.modified node.spine _ spines_begin spines_begin rfl rfl

theorem push (same : store.SameBelow bound other) (id : Nat) (value : ν) (frontier : Frontier ω ν) :
    (store.push id value frontier).SameBelow bound (other.push id value frontier) :=
  same.modified id _ spines_push spines_push rfl rfl

theorem setFrontier (same : store.SameBelow bound other) (id : Nat) (frontier : Frontier ω ν) :
    (store.setFrontier id frontier).SameBelow bound (other.setFrontier id frontier) :=
  same.modified id _ spines_setFrontier spines_setFrontier rfl rfl

theorem modified_newer (same : store.SameBelow bound other) (f : Spine ω ν → Spine ω ν)
    (newer : bound ≤ id) (changed : store'.spines = store.spines.modify id f)
    (notes : store'.notes = store.notes) : store'.SameBelow bound other := by
  refine ⟨fun id' older => ?_, by rw [notes, same.notes]⟩
  rw [changed, Array.getElem?_modify, if_neg (Nat.ne_of_gt (older.trans_le newer)),
    same.spines id' older]

theorem pushed {spine : Spine ω ν} (inside : bound ≤ store.spines.size) :
    (store.pushed spine).SameBelow bound store :=
  ⟨fun _ older => getElem?_pushed (older.trans_le inside), rfl⟩

end SameBelow

theorem sameBelow_of_eq_some (fuel : Nat) :
    (∀ {node : Node} {store store' : Store ω ν} {q : Sequence ν},
      rest fuel node store = some (q, store') → ∀ {other : Store ω ν}, Asking M store node →
      node.spine < bound → store.SameBelow bound other →
      ∃ other', rest fuel node other = some (q, other') ∧ store'.SameBelow bound other') ∧
    (∀ {id : Nat} {source : Producer ω ν ν} {tail : Noted ω (Sequence ν)}
      {store store' : Store ω ν} {q : Sequence ν},
      extend fuel id source tail store = some (q, store') → ∀ {other : Store ω ν} {index : Nat},
      Extending M store ⟨id, index⟩ source tail → id < bound → store.SameBelow bound other →
      ∃ other', extend fuel id source tail other = some (q, other') ∧
        store'.SameBelow bound other') := by
  -- Forcing a node of a spine reads and changes that spine and older ones only, so the other store goes
  -- through the same steps.
  refine forcing_induction
    (P := fun fuel node store q store' => ∀ {other : Store ω ν}, Asking M store node →
      node.spine < bound → store.SameBelow bound other →
      ∃ other', rest fuel node other = some (q, other') ∧ store'.SameBelow bound other')
    (Q := fun fuel id source tail store q store' => ∀ {other : Store ω ν} {index : Nat},
      Extending M store ⟨id, index⟩ source tail → id < bound → store.SameBelow bound other →
      ∃ other', extend fuel id source tail other = some (q, other') ∧
        store'.SameBelow bound other')
    ?stored ?run ?yield ?skip ?force ?done fuel
  case stored =>
    intro fuel node store q there other asking older same
    exact ⟨other, (there.congr (same.spines node.spine older)).rest_eq fuel, same⟩
  case run =>
    intro fuel node store elements source tail q store' present last extended other asking older same
    obtain ⟨extending, -⟩ := asking.extending present (asking.last present last)
    rw [rest_suspended (same.spines node.spine older ▸ present) last]
    exact extended extending older (same.begin node)
  case yield =>
    intro fuel id source tail store value next move logged other index extending older same
    have same' := same.log (source.step source.state).notes
    rw [extend_yield move]
    exact ⟨_, by rw [same'.size older], same'.push id value _⟩
  case skip =>
    intro fuel id source tail store next q store' move extended other index extending older same
    rw [extend_skip move]
    exact extended ((extending.log _).skip move) older (same.log _)
  case force =>
    intro fuel id source tail store node resume q middle q' store' move answered answers extended
      other index extending older same
    have logged := extending.log (source.step source.state).notes
    obtain ⟨before, asking⟩ := logged.asking move
    obtain ⟨middle', answered', same'⟩ := answers asking (before.trans older) (same.log _)
    rw [extend_force move, answered']
    exact extended (logged.resume move (found_of_rest asking answered)) older same'
  case done =>
    intro fuel id source tail store move other index extending older same
    exact ⟨_, extend_done move, ((same.log _).log tail.notes).setFrontier id _⟩

theorem Asking.inside {node : Node} (asking : Asking M store node) :
    node.spine < store.spines.size := by
  by_contra beyond
  have computed := asking.computed
  rw [size, Array.getElem?_eq_none (Nat.le_of_not_lt beyond)] at computed
  exact Nat.not_lt_zero _ computed

theorem SameBelow.rest_settles {node : Node} {q : Sequence ν} (same : store.SameBelow bound other)
    (asking : Asking M store node) (older : node.spine < bound)
    (settles : Settles (fun fuel => rest fuel node store) (q, store')) :
    ∃ other', Settles (fun fuel => rest fuel node other) (q, other') ∧
      store'.SameBelow bound other' := by
  obtain ⟨enough, settles⟩ := settles
  obtain ⟨other', result, same'⟩ :=
    (sameBelow_of_eq_some enough).1 (settles enough le_rfl) asking older same
  exact ⟨other', steady_rest.settles result, same'⟩

end DemandLex.Store
