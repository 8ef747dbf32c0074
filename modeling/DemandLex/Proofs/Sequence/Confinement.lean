import DemandLex.Proofs.Sequence.Flattening
import DemandLex.Proofs.Sequence.Drawing

/-! Confinement. New spines whose producers look behind some of the older nodes only never make anything
look behind the other ones, whatever is done with them. -/

namespace DemandLex

open Effect

variable {ω ν σ τ ρ α β : Type} {M N : Meaning ν} {allowed : Node → Prop} {bound : Nat}

def Sequence.Newer (bound : Nat) (s : Sequence ν) : Prop :=
  ∀ cell, s = some cell → bound ≤ cell.node.spine

theorem Sequence.newer_none : Sequence.Newer bound (none : Sequence ν) := by rintro cell ⟨⟩

def Move.Stays (M : Meaning ν) (allowed : Node → Prop) (bound : Nat) (Inv : σ → Prop) :
    Move ν σ α → Prop
  | .yield _ next => Inv next
  | .skip next => Inv next
  | .force node resume =>
    (node.spine < bound ∧ allowed node ∧ ∀ q, M.after node = some q → Inv (resume q)) ∨
      (bound ≤ node.spine ∧ ∀ q : Sequence ν, q.Newer bound → Inv (resume q))
  | .done => True

theorem Move.Stays.mono {Inv Inv' : σ → Prop} {move : Move ν σ α}
    (stays : move.Stays M allowed bound Inv) (weaker : ∀ s, Inv s → Inv' s) :
    move.Stays M allowed bound Inv' := by
  cases move with
  | yield value next => exact weaker _ stays
  | skip next => exact weaker _ stays
  | force node resume =>
    exact stays.imp (And.imp_right (And.imp_right fun answers q follows => weaker _ (answers q follows)))
      (And.imp_right fun answers q newer => weaker _ (answers q newer))
  | done => exact trivial

namespace Producer

/-- From this state on, a producer looks behind allowed nodes only, of the spines before one. -/
def Confined (M : Meaning ν) (allowed : Node → Prop) (bound : Nat)
    (step : σ → Noted ω (Move ν σ α)) (s : σ) : Prop :=
  ∃ Inv : σ → Prop, Inv s ∧ ∀ s, Inv s → (step s).value.Stays M allowed bound Inv

section Confined
variable {step : σ → Noted ω (Move ν σ α)} {s : σ}

theorem Confined.stays (confined : Confined M allowed bound step s) :
    (step s).value.Stays M allowed bound (Confined M allowed bound step) := by
  obtain ⟨Inv, here, steps⟩ := confined
  exact (steps s here).mono fun _ kept => ⟨Inv, kept, steps⟩

/-- A producer whose moves come from those of another one is confined where the other one is. -/
theorem Confined.of_source {step' : ρ → Noted ω (Move ν ρ β)} (source : ρ → σ)
    (moves : ∀ t, (step (source t)).value.Stays M allowed bound (Confined M allowed bound step) →
      (step' t).value.Stays M allowed bound fun t => Confined M allowed bound step (source t))
    {t : ρ} (confined : Confined M allowed bound step (source t)) :
    Confined M allowed bound step' t :=
  ⟨fun t => Confined M allowed bound step (source t), confined,
    fun t inside => moves t inside.stays⟩

end Confined

section Operators
variable {p : Producer ω ν α} {s : p.State}

theorem confined_scanFilter {start carried : τ} {step : τ → α → Noted ω (τ × Option β)}
    (confined : Confined M allowed bound p.step s) :
    Confined M allowed bound (p.scanFilter start step).step (s, carried) := by
  refine Confined.of_source (fun t : p.State × τ => t.1) ?_ confined
  rintro ⟨s, carried⟩ stays
  rcases scanFilter_cases p start step s carried with
    ⟨value, next, carried', output, move, -, moved⟩ | ⟨value, next, carried', move, -, moved⟩ |
    ⟨next, move, moved⟩ | ⟨node, resume, move, moved⟩ | ⟨move, moved⟩
  all_goals
    rw [move] at stays
    rw [moved]
    exact stays

theorem confined_takeWhile {keep : α → Noted ω Bool} (confined : Confined M allowed bound p.step s) :
    Confined M allowed bound (p.takeWhile keep).step s := by
  refine Confined.of_source (fun s => s) ?_ confined
  intro s stays
  cases move : (p.step s).value with
  | yield value next =>
    rw [move] at stays
    cases kept : (keep value).value with
    | true => simpa [takeWhile, move, kept, Move.Stays] using stays
    | false => simp [takeWhile, move, kept, Move.Stays]
  | skip | force =>
    rw [move] at stays
    simpa [takeWhile, move, Move.Stays] using stays
  | done => simp [takeWhile, move, Move.Stays]

theorem confined_take {count left : Nat} (confined : Confined M allowed bound p.step s) :
    Confined M allowed bound (p.take count).step (left, s) := by
  refine Confined.of_source (fun t : Nat × p.State => t.2) ?_ confined
  rintro ⟨left, s⟩ stays
  cases left with
  | zero => exact trivial
  | succ left =>
    cases move : (p.step s).value with
    | yield | skip | force =>
      rw [move] at stays
      simpa [take, move, Move.lift, Move.Stays] using stays
    | done => simp [take, move, Move.lift, Move.Stays]

theorem confined_append {q : Producer ω ν α}
    (alone : ∀ t node resume, (q.step t).value ≠ .force node resume)
    (confined : Confined M allowed bound p.step s) :
    Confined M allowed bound (p.append q).step (.inl s) := by
  refine ⟨fun t : p.State ⊕ q.State => ∀ s, t = .inl s → Confined M allowed bound p.step s,
    fun s same => Sum.inl.inj same ▸ confined, ?_⟩
  rintro (s | t) inside
  · have stays := (inside s rfl).stays
    have further {s : p.State} (confined : Confined M allowed bound p.step s) (s' : p.State)
        (same : (Sum.inl s : p.State ⊕ q.State) = .inl s') : Confined M allowed bound p.step s' :=
      Sum.inl.inj same ▸ confined
    cases move : (p.step s).value with
    | yield value next =>
      rw [move] at stays
      rw [append_yield move]
      exact further stays
    | skip next =>
      rw [move] at stays
      rw [append_skip move]
      exact further stays
    | force node resume =>
      rw [move] at stays
      rw [append_force move]
      exact stays.imp
        (And.imp_right (And.imp_right fun answers r follows => further (answers r follows)))
        (And.imp_right fun answers r newer => further (answers r newer))
    | done =>
      rw [append_done move]
      rintro s ⟨⟩
  · have moved : ((p.append q).step (.inr t)).value = (q.step t).value.lift .inr := rfl
    rw [moved]
    cases move : (q.step t).value with
    | yield | skip => rintro s ⟨⟩
    | force node resume => exact absurd move (alone t node resume)
    | done => exact trivial

theorem confined_flatten {p : Producer ω ν σ} {run : σ → Noted ω (Move ν σ α)} {s : p.State}
    (alone : ∀ inner node resume, (run inner).value ≠ .force node resume)
    (confined : Confined M allowed bound p.step s) :
    Confined M allowed bound (p.flatten run).step (s, none) := by
  refine ⟨fun t : p.State × Option σ => Confined M allowed bound p.step t.1, confined, ?_⟩
  rintro ⟨outer, _ | inner⟩ inside
  · have stays := inside.stays
    rcases flatten_outer_cases p run outer with
      ⟨start, next, move, moved⟩ | ⟨next, move, moved⟩ | ⟨node, resume, move, moved⟩ | ⟨move, moved⟩
    all_goals
      rw [move] at stays
      rw [moved]
      exact stays
  · rcases flatten_inner_cases p run outer inner with
      ⟨value, next, -, moved⟩ | ⟨next, -, moved⟩ | ⟨node, resume, move, -⟩ | ⟨-, moved⟩
    · rw [moved]
      exact inside
    · rw [moved]
      exact inside
    · exact absurd move (alone inner node resume)
    · rw [moved]
      exact inside

end Operators

section Reading

theorem confined_reading {t : Sequence ν}
    (among : ∀ cells cell, M.Walks t cells (some cell) → cell.node.spine < bound ∧ allowed cell.node) :
    Confined M allowed bound (reading (ω := ω)) (.here t) := by
  refine ⟨fun r => match r with
    | .here q => ∃ cells, M.Walks t cells q
    | .after node => ∃ cells cell, M.Walks t cells (some cell) ∧ cell.node = node, ⟨[], .nil⟩, ?_⟩
  rintro ((_ | cell) | node) inside
  · exact trivial
  · obtain ⟨cells, walks⟩ := inside
    exact ⟨cells, cell, walks, rfl⟩
  · obtain ⟨cells, cell, walks, rfl⟩ := inside
    obtain ⟨older, may⟩ := among cells cell walks
    exact Or.inl ⟨older, may, fun q follows => ⟨_, walks.concat follows⟩⟩

theorem confined_reading_newer {t : Sequence ν} (newer : t.Newer bound) :
    Confined M allowed bound (reading (ω := ω)) (.here t) := by
  refine ⟨fun r => match r with
    | .here q => q.Newer bound
    | .after node => bound ≤ node.spine, newer, ?_⟩
  rintro ((_ | cell) | node) inside
  · exact trivial
  · exact inside cell rfl
  · exact Or.inr ⟨inside, fun q newer => newer⟩

/-- Elements of a sequence are taken without a look behind the last of them. -/
theorem confined_take_reading {s : Sequence ν} {count : Nat}
    (among : ∀ cells cell, M.Walks s cells (some cell) → cells.length + 1 < count →
      cell.node.spine < bound ∧ allowed cell.node) :
    Confined M allowed bound ((ofSequence s).take count (ω := ω)).step (count, .here s) := by
  refine ⟨fun state => match state with
    | (0, _) => True
    | (left + 1, .here q) => ∃ cells, M.Walks s cells q ∧ cells.length + (left + 1) = count
    | (left + 1, .after node) => ∃ cells cell, M.Walks s cells (some cell) ∧ cell.node = node ∧
        cells.length + (left + 2) = count, ?_, ?_⟩
  · cases count with
    | zero => exact trivial
    | succ count => exact ⟨[], .nil, Nat.zero_add _⟩
  · rintro ⟨_ | left, (_ | cell) | node⟩ inside
    · exact trivial
    · exact trivial
    · exact trivial
    · exact trivial
    · obtain ⟨cells, walks, place⟩ := inside
      cases left with
      | zero => exact trivial
      | succ left => exact ⟨cells, cell, walks, rfl, place⟩
    · obtain ⟨cells, cell, walks, rfl, place⟩ := inside
      obtain ⟨older, may⟩ := among cells cell walks (by omega)
      refine Or.inl ⟨older, may, fun q follows => ⟨_, walks.concat follows, ?_⟩⟩
      rw [List.length_append, List.length_singleton]
      omega

end Reading

end Producer

def Frontier.Fenced (M : Meaning ν) (allowed : Node → Prop) (bound : Nat) : Frontier ω ν → Prop
  | .suspended source tail =>
    Producer.Confined M allowed bound source.step source.state ∧ tail.value.Newer bound
  | .running => True
  | .closed tail => tail.Newer bound

namespace Store

def Fenced (M : Meaning ν) (allowed : Node → Prop) (bound : Nat) (store : Store ω ν) : Prop :=
  ∀ id spine, bound ≤ id → store.spines[id]? = some spine → spine.frontier.Fenced M allowed bound

def Explored (allowed : Node → Prop) (base store : Store ω ν) : Prop :=
  ∃ effects other, base.Undergoes effects other ∧ store.SameBelow base.spines.size other ∧
    ∀ node, .look node ∈ effects → allowed node

section Explored
variable {base store store' : Store ω ν} {node : Node} {q : Sequence ν}

theorem explored_refl (base : Store ω ν) : Explored allowed base base :=
  ⟨[], base, .nil, .refl base, by simp⟩

theorem Explored.same (explored : Explored allowed base store)
    (same : store'.SameBelow base.spines.size store) : Explored allowed base store' := by
  obtain ⟨effects, other, undergoes, same', may⟩ := explored
  exact ⟨effects, other, undergoes, same.trans same', may⟩

theorem Explored.mono {allowed' : Node → Prop} (explored : Explored allowed base store)
    (weaker : ∀ node, allowed node → allowed' node) : Explored allowed' base store := by
  obtain ⟨effects, other, undergoes, same, may⟩ := explored
  exact ⟨effects, other, undergoes, same, fun node inside => weaker node (may node inside)⟩

theorem Explored.log (explored : Explored allowed base store) (notes : List ω) :
    Explored allowed base (store.log notes) := by
  obtain ⟨effects, other, undergoes, same, may⟩ := explored
  refine ⟨effects ++ noting notes, other.log notes, undergoes.append undergoes_log,
    same.log notes, ?_⟩
  intro node inside
  rcases List.mem_append.mp inside with inside | noted
  · exact may node inside
  · simp [noting] at noted

theorem Explored.look (explored : Explored allowed base store) (asking : Asking N store node)
    (older : node.spine < base.spines.size) (allows : allowed node)
    (settles : Settles (fun fuel => rest fuel node store) (q, store')) :
    Explored allowed base store' := by
  obtain ⟨effects, other, undergoes, same, may⟩ := explored
  obtain ⟨other', settles', same'⟩ := same.rest_settles asking older settles
  refine ⟨effects ++ [.look node], other',
    undergoes.append (.look (same.size older ▸ asking.computed) settles' .nil), same', ?_⟩
  intro node' inside
  rcases List.mem_append.mp inside with inside | last
  · exact may node' inside
  · simp only [List.mem_singleton, Effect.look.injEq] at last
    exact last ▸ allows

end Explored

/-- A store in which looks behind allowed nodes have been made, and no other ones ever will be. -/
structure Guarded (M : Meaning ν) (allowed : Node → Prop) (base store : Store ω ν) : Prop where
  fenced : store.Fenced M allowed base.spines.size
  explored : Explored allowed base store

section Guarded
variable {base store store' : Store ω ν} {node : Node} {q : Sequence ν} {fuel : Nat}

theorem guarded_refl (base : Store ω ν) : Guarded M allowed base base := by
  refine ⟨fun id spine newer present => ?_, explored_refl base⟩
  rw [Array.getElem?_eq_none newer] at present
  cases present

theorem Guarded.log (guarded : Guarded M allowed base store) (notes : List ω) :
    Guarded M allowed base (store.log notes) :=
  ⟨guarded.fenced, guarded.explored.log notes⟩

theorem Guarded.modified {id : Nat} {spine : Spine ω ν} {f : Spine ω ν → Spine ω ν}
    (guarded : Guarded M allowed base store) (newer : base.spines.size ≤ id)
    (found : store.spines[id]? = some spine)
    (changed : store'.spines = store.spines.modify id f) (notes : store'.notes = store.notes)
    (fenced : (f spine).frontier.Fenced M allowed base.spines.size) :
    Guarded M allowed base store' := by
  refine ⟨fun id' spine' newer' present => ?_,
    guarded.explored.same ((SameBelow.refl store).modified_newer f newer changed notes)⟩
  rw [getElem?_modified found changed] at present
  split at present
  · cases present
    exact fenced
  · exact guarded.fenced id' spine' newer' present

theorem Guarded.pushed {spine : Spine ω ν} (guarded : Guarded M allowed base store)
    (inside : base.spines.size ≤ store.spines.size)
    (fenced : spine.frontier.Fenced M allowed base.spines.size) :
    Guarded M allowed base (store.pushed spine) := by
  refine ⟨fun id spine' newer present => ?_, guarded.explored.same (.pushed inside)⟩
  rcases pushed_cases present with ⟨-, present⟩ | ⟨-, rfl⟩
  · exact guarded.fenced id spine' newer present
  · exact fenced

theorem Guarded.rest_older (guarded : Guarded M allowed base store) (asking : Asking N store node)
    (older : node.spine < base.spines.size) (allows : allowed node)
    (result : rest fuel node store = some (q, store')) : Guarded M allowed base store' := by
  have found := found_of_rest asking result
  refine ⟨fun id spine newer present => ?_,
    guarded.explored.look asking older allows (steady_rest.settles result)⟩
  rw [found.grows.same id (Nat.succ_le_of_lt (older.trans_le newer))] at present
  exact guarded.fenced id spine newer present

theorem Fenced.newer_stored (fenced : store.Fenced M allowed base.spines.size)
    (newer : base.spines.size ≤ node.spine) (there : store.Stored node q) :
    q.Newer base.spines.size := by
  cases there with
  | absent => exact Sequence.newer_none
  | element =>
    rintro cell ⟨⟩
    exact newer
  | closed present => exact fenced _ _ newer present
  | running => exact Sequence.newer_none

theorem guarded_of_eq_some (agree : M.Agree N base.spines.size) (fuel : Nat) :
    (∀ {node : Node} {store store' : Store ω ν} {q : Sequence ν},
      rest fuel node store = some (q, store') → Guarded M allowed base store →
      Asking N store node → base.spines.size ≤ node.spine →
      Guarded M allowed base store' ∧ q.Newer base.spines.size) ∧
    (∀ {id : Nat} {source : Producer ω ν ν} {tail : Noted ω (Sequence ν)}
      {store store' : Store ω ν} {q : Sequence ν},
      extend fuel id source tail store = some (q, store') → ∀ index, Guarded M allowed base store →
      Extending N store ⟨id, index⟩ source tail → base.spines.size ≤ id →
      Producer.Confined M allowed base.spines.size source.step source.state →
      tail.value.Newer base.spines.size →
      Guarded M allowed base store' ∧ q.Newer base.spines.size) := by
  refine forcing_induction
    (P := fun _ node store q store' => Guarded M allowed base store → Asking N store node →
      base.spines.size ≤ node.spine → Guarded M allowed base store' ∧ q.Newer base.spines.size)
    (Q := fun _ id source tail store q store' => ∀ index, Guarded M allowed base store →
      Extending N store ⟨id, index⟩ source tail → base.spines.size ≤ id →
      Producer.Confined M allowed base.spines.size source.step source.state →
      tail.value.Newer base.spines.size →
      Guarded M allowed base store' ∧ q.Newer base.spines.size)
    ?stored ?run ?yield ?skip ?force ?done fuel
  case stored =>
    intro fuel node store q there guarded asking newer
    exact ⟨guarded, guarded.fenced.newer_stored newer there⟩
  case run =>
    intro fuel node store elements source tail q store' present beyond extended guarded asking newer
    obtain ⟨confined, behind⟩ := guarded.fenced _ _ newer present
    obtain ⟨extending, -⟩ := asking.extending present (asking.last present beyond)
    have begun : Guarded M allowed base (store.begin node) :=
      guarded.modified newer present spines_begin rfl trivial
    exact extended _ begun extending newer confined behind
  case yield =>
    intro fuel id source tail store value next move logged index guarded extending newer confined
      behind
    obtain ⟨elements, present, -⟩ := (extending.log (source.step source.state).notes).running
    have stays := confined.stays
    rw [move] at stays
    refine ⟨(guarded.log _).modified newer present spines_push rfl ⟨stays, behind⟩, ?_⟩
    rintro cell ⟨⟩
    exact newer
  case skip =>
    intro fuel id source tail store next q store' move extended index guarded extending newer confined
      behind
    have stays := confined.stays
    rw [move] at stays
    exact extended index (guarded.log _) ((extending.log _).skip move) newer stays behind
  case force =>
    intro fuel id source tail store node resume q middle q' store' move answered answers extended
      index guarded extending newer confined behind
    have logged := extending.log (source.step source.state).notes
    obtain ⟨-, asking⟩ := logged.asking move
    have found := found_of_rest asking answered
    have stays := confined.stays
    rw [move] at stays
    -- an older node may be forced when it is allowed, and a newer one is guarded by induction
    rcases stays with ⟨older, allows, resumes⟩ | ⟨newer', resumes⟩
    · have confined' := resumes q ((agree.after older).symm.trans found.stands)
      exact extended index ((guarded.log _).rest_older asking older allows answered)
        (logged.resume move found) newer confined' behind
    · obtain ⟨guarded', behind'⟩ := answers (guarded.log _) asking newer'
      exact extended index guarded' (logged.resume move found) newer (resumes q behind') behind
  case done =>
    intro fuel id source tail store move index guarded extending newer confined behind
    obtain ⟨elements, present, -⟩ := (extending.log (source.step source.state).notes).running
    exact ⟨((guarded.log _).log tail.notes).modified newer present spines_setFrontier rfl behind,
      behind⟩

theorem Guarded.rest_newer (guarded : Guarded M allowed base store)
    (agree : M.Agree N base.spines.size) (asking : Asking N store node)
    (newer : base.spines.size ≤ node.spine) (result : rest fuel node store = some (q, store')) :
    Guarded M allowed base store' ∧ q.Newer base.spines.size :=
  (guarded_of_eq_some agree fuel).1 result guarded asking newer

theorem Guarded.share {source : Producer ω ν ν} (guarded : Guarded M allowed base store)
    (agree : M.Agree N base.spines.size) (inside : base.spines.size ≤ store.spines.size)
    (ready : store.Ready N)
    (grounded : Producer.Grounded store.spines.size source.step store.size source.state)
    (confined : Producer.Confined M allowed base.spines.size source.step source.state)
    (result : source.share fuel store = some (q, store')) :
    Guarded M allowed base store' ∧ q.Newer base.spines.size := by
  obtain ⟨σ, s, step⟩ := source
  have shareable := Producer.shareable_of_grounded grounded
  have extending := Producer.extending_pushed ready shareable
  have begun : Guarded M allowed base (store.pushed ⟨#[], .running⟩) := guarded.pushed inside trivial
  have agree' : M.Agree (Producer.meaningWith N store ⟨σ, s, step⟩ (pure none)) base.spines.size :=
    agree.trans Producer.agree_extend inside
  exact (guarded_of_eq_some agree' fuel).2 result 0 begun extending inside confined
    Sequence.newer_none

end Guarded

end Store

end DemandLex
