import DemandLex.Proofs.Sequence.Share

/-! No rest is computed twice. A store keeps the nodes whose rest was computed or is being computed; the
rest of such a node is there, or its spine is under way, so that it is never begun again. -/

namespace DemandLex

variable {ω ν : Type} {M : Meaning ν}

def Spine.Begun (spine : Spine ω ν) (index : Nat) : Prop :=
  index + 1 < spine.elements.size ∨ index + 1 = spine.elements.size ∧
    ∀ source tail, spine.frontier ≠ .suspended source tail

namespace Store

variable {store store' : Store ω ν}

structure Adds (store store' : Store ω ν) : Prop where
  notes : store.notes.toList <+: store'.notes.toList
  runs : store.runs.toList <+: store'.runs.toList

section Adds

theorem Adds.refl (store : Store ω ν) : store.Adds store :=
  ⟨List.prefix_refl _, List.prefix_refl _⟩

theorem Adds.trans {last : Store ω ν} (first : store.Adds store') (second : store'.Adds last) :
    store.Adds last :=
  ⟨first.notes.trans second.notes, first.runs.trans second.runs⟩

theorem adds_log (notes : List ω) : store.Adds (store.log notes) :=
  ⟨by rw [toList_notes_log]; exact List.prefix_append .., List.prefix_refl _⟩

theorem adds_begin (node : Node) : store.Adds (store.begin node) := by
  refine ⟨List.prefix_refl _, ?_⟩
  simp [Store.begin, setFrontier]

theorem adds_push (id : Nat) (value : ν) (frontier : Frontier ω ν) :
    store.Adds (store.push id value frontier) :=
  ⟨List.prefix_refl _, List.prefix_refl _⟩

theorem adds_setFrontier (id : Nat) (frontier : Frontier ω ν) :
    store.Adds (store.setFrontier id frontier) :=
  ⟨List.prefix_refl _, List.prefix_refl _⟩

theorem adds_of_eq_some (fuel : Nat) :
    (∀ {node : Node} {store store' : Store ω ν} {s : Sequence ν},
      rest fuel node store = some (s, store') → store.Adds store') ∧
    (∀ {id : Nat} {source : Producer ω ν ν} {tail : Noted ω (Sequence ν)}
      {store store' : Store ω ν} {s : Sequence ν},
      extend fuel id source tail store = some (s, store') → store.Adds store') := by
  refine forcing_induction (P := fun _ _ store _ store' => store.Adds store')
    (Q := fun _ _ _ _ store _ store' => store.Adds store')
    ?stored ?run ?yield ?skip ?force ?done fuel
  case stored =>
    intro fuel node store s there
    exact .refl store
  case run =>
    intro fuel node store elements source tail s store' present last extended
    exact (adds_begin node).trans extended
  case yield =>
    intro fuel id source tail store value next move
    exact (adds_log _).trans (adds_push id value _)
  case skip =>
    intro fuel id source tail store next s store' move extended
    exact (adds_log _).trans extended
  case force =>
    intro fuel id source tail store node resume q middle s store' move answered answers extended
    exact ((adds_log _).trans answers).trans extended
  case done =>
    intro fuel id source tail store move
    exact ((adds_log _).trans (adds_log tail.notes)).trans (adds_setFrontier id _)

end Adds

def Begun (store : Store ω ν) (node : Node) : Prop :=
  ∃ spine, store.spines[node.spine]? = some spine ∧ spine.Begun node.index

/-- Each rest that has been computed was computed once. -/
structure Once (store : Store ω ν) : Prop where
  nodup : store.runs.toList.Nodup
  begun (node : Node) : node ∈ store.runs → store.Begun node

theorem once_empty : (empty : Store ω ν).Once :=
  ⟨List.nodup_nil, fun node inside => absurd inside (Array.not_mem_empty node)⟩

section Update
variable {id : Nat} {spine : Spine ω ν} {f : Spine ω ν → Spine ω ν}

theorem Begun.modified {node : Node} (begun : store.Begun node)
    (found : store.spines[id]? = some spine)
    (changed : store'.spines = store.spines.modify id f)
    (more : ∀ index, spine.Begun index → (f spine).Begun index) : store'.Begun node := by
  obtain ⟨spine', present, begun⟩ := begun
  by_cases same : node.spine = id
  · rw [same, found] at present
    cases present
    refine ⟨f spine, ?_, more _ begun⟩
    rw [getElem?_modified found changed, if_pos same]
  · refine ⟨spine', ?_, begun⟩
    rw [getElem?_modified found changed, if_neg same, present]

theorem Once.modified (once : store.Once) (found : store.spines[id]? = some spine)
    (changed : store'.spines = store.spines.modify id f) (runs : store'.runs = store.runs)
    (more : ∀ index, spine.Begun index → (f spine).Begun index) : store'.Once where
  nodup := by rw [runs]; exact once.nodup
  begun node inside := (once.begun node (runs ▸ inside)).modified found changed more

theorem Once.log (once : store.Once) (notes : List ω) : (store.log notes).Once :=
  ⟨once.nodup, once.begun⟩

theorem Once.begin {node : Node} {elements : Array ν} {source : Producer ω ν ν}
    {tail : Noted ω (Sequence ν)} (once : store.Once)
    (present : store.spines[node.spine]? = some ⟨elements, .suspended source tail⟩)
    (last : elements.size = node.index + 1) : (store.begin node).Once := by
  have more (index : Nat) (begun : (⟨elements, .suspended source tail⟩ : Spine ω ν).Begun index) :
      (⟨elements, .running⟩ : Spine ω ν).Begun index := by
    rcases begun with inside | ⟨-, moved⟩
    · exact Or.inl inside
    · exact absurd rfl (moved source tail)
  have waits : node ∉ store.runs := by
    intro inside
    obtain ⟨spine, present', begun⟩ := once.begun node inside
    cases present.symm.trans present'
    rcases begun with inside | ⟨-, moved⟩
    · simp only [last] at inside
      omega
    · exact moved source tail rfl
  constructor
  · have runs : (store.begin node).runs.toList = store.runs.toList ++ [node] := by
      simp [Store.begin, setFrontier]
    rw [runs]
    exact once.nodup.append (List.nodup_singleton node) (by simpa using waits)
  · intro node' inside
    rcases Array.mem_push.mp inside with inside | rfl
    · exact (once.begun node' inside).modified present spines_begin more
    · exact ⟨_, getElem?_begin present, Or.inr ⟨last.symm, by rintro source tail ⟨⟩⟩⟩

theorem Once.push {elements : Array ν} (once : store.Once)
    (present : store.spines[id]? = some ⟨elements, .running⟩) (value : ν) (frontier : Frontier ω ν) :
    (store.push id value frontier).Once := by
  refine once.modified present spines_push rfl ?_
  intro index begun
  left
  rcases begun with inside | ⟨last, -⟩
  · simpa using Nat.lt_succ_of_lt inside
  · simp [last]

theorem Once.close {elements : Array ν} (once : store.Once)
    (present : store.spines[id]? = some ⟨elements, .running⟩) (tail : Sequence ν) :
    (store.setFrontier id (.closed tail)).Once := by
  refine once.modified present spines_setFrontier rfl ?_
  rintro index (inside | ⟨last, -⟩)
  · exact Or.inl inside
  · exact Or.inr ⟨last, by rintro source tail ⟨⟩⟩

end Update

theorem once_of_eq_some (fuel : Nat) :
    (∀ {node : Node} {store store' : Store ω ν} {q : Sequence ν},
      rest fuel node store = some (q, store') → store.Once → Asking M store node → store'.Once) ∧
    (∀ {id : Nat} {source : Producer ω ν ν} {tail : Noted ω (Sequence ν)}
      {store store' : Store ω ν} {q : Sequence ν},
      extend fuel id source tail store = some (q, store') → ∀ index, store.Once →
        Extending M store ⟨id, index⟩ source tail → store'.Once) := by
  refine forcing_induction
    (P := fun _ node store _ store' => store.Once → Asking M store node → store'.Once)
    (Q := fun _ id source tail store _ store' => ∀ index, store.Once →
      Extending M store ⟨id, index⟩ source tail → store'.Once)
    ?stored ?run ?yield ?skip ?force ?done fuel
  case stored =>
    intro fuel node store q there once asking
    exact once
  case run =>
    intro fuel node store elements source tail q store' present beyond extended once asking
    have last := asking.last present beyond
    obtain ⟨extending, -⟩ := asking.extending present last
    exact extended _ (once.begin present last) extending
  case yield =>
    intro fuel id source tail store value next move logged index once extending
    obtain ⟨elements, present, -⟩ := (extending.log (source.step source.state).notes).running
    exact (once.log _).push present value _
  case skip =>
    intro fuel id source tail store next q store' move extended index once extending
    exact extended index (once.log _) ((extending.log _).skip move)
  case force =>
    intro fuel id source tail store node resume q middle q' store' move answered answers extended
      index once extending
    have logged := extending.log (source.step source.state).notes
    obtain ⟨-, asking⟩ := logged.asking move
    exact extended index (answers (once.log _) asking)
      (logged.resume move (found_of_rest asking answered))
  case done =>
    intro fuel id source tail store move index once extending
    have logged := (extending.log (source.step source.state).notes).log tail.notes
    obtain ⟨elements, present, -⟩ := logged.running
    exact ((once.log _).log _).close present tail.value

theorem Once.rest {fuel : Nat} {node : Node} {q : Sequence ν} (once : store.Once)
    (asking : Asking M store node) (result : rest fuel node store = some (q, store')) :
    store'.Once :=
  (once_of_eq_some fuel).1 result once asking

/-- What has been computed is there, and stays what it is. -/
theorem Begun.rest_eq {node : Node} (begun : store.Begun node) (ready : store.Ready M) :
    ∃ q, M.after node = some q ∧ ∀ fuel, Store.rest (fuel + 1) node store = some (q, store) := by
  obtain ⟨⟨elements, frontier⟩, present, begun⟩ := begun
  have inside := (Array.getElem?_eq_some_iff.mp present).1
  rcases begun with computed | ⟨last, moved⟩
  · have stored : elements[node.index + 1]? = some elements[node.index + 1] :=
      Array.getElem?_eq_getElem computed
    exact ⟨_, ready.fits.stored _ _ present _ _ stored, fun fuel => rest_stored present stored⟩
  · have beyond : elements[node.index + 1]? = none := Array.getElem?_eq_none last.ge
    cases frontier with
    | suspended source tail => exact absurd rfl (moved source tail)
    | running => exact absurd rfl (ready.idle _ _ inside present)
    | closed tail =>
      have follows := (ready.fits.frontier _ _ present).1
      rw [← last] at follows
      exact ⟨tail, follows, fun fuel => rest_closed present beyond⟩

theorem Once.pushed {spine : Spine ω ν} (once : store.Once) : (store.pushed spine).Once where
  nodup := once.nodup
  begun node inside := by
    obtain ⟨spine', present, begun⟩ := once.begun node inside
    have older := (Array.getElem?_eq_some_iff.mp present).1
    exact ⟨spine', (getElem?_pushed older).trans present, begun⟩

theorem Once.share {source : Producer ω ν ν} {tail : Noted ω (Sequence ν)} {fuel : Nat}
    {q : Sequence ν} (once : store.Once) (ready : store.Ready M)
    (shareable : Producer.Shareable store source tail)
    (result : source.shareBefore tail fuel store = some (q, store')) : store'.Once :=
  (once_of_eq_some fuel).2 result 0 once.pushed (Producer.extending_pushed ready shareable)

end Store

end DemandLex
