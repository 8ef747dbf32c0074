import DemandLex.Proofs.Program.Operators
import DemandLex.Proofs.Sequence.Confinement

/-! Consumption. Whoever has sequences at hand takes notes, looks behind them, and puts operators on
them, any number of times; of one more sequence, only the first elements are taken. All of it looks
behind allowed nodes only, if that goes for the sequences and for these first elements. -/

namespace DemandLex.Program

variable {ω ν α : Type} {M N : Meaning ν} {allowed : Node → Prop} {bound : Nat}
  {base store store' last : Store ω ν} {handles handles' : List (Sequence ν)}
  {source s t : Sequence ν} {n : Nat}

/-- The sequences at hand and the store, before and after some use of them and of no more than the
first `n` elements of another one. -/
inductive Consumes (source : Sequence ν) (n : Nat) (handles : List (Sequence ν))
    (store : Store ω ν) : List (Sequence ν) → Store ω ν → Prop
  | start : Consumes source n handles store handles store
  | note {handles' : List (Sequence ν)} {store' : Store ω ν}
      (first : Consumes source n handles store handles' store') (notes : List ω) :
      Consumes source n handles store handles' (store'.log notes)
  | look {handles' : List (Sequence ν)} {store' last : Store ω ν} {cell : Cell ν} {fuel : Nat}
      {q : Sequence ν} (first : Consumes source n handles store handles' store')
      (among : some cell ∈ handles') (result : Store.rest fuel cell.node store' = some (q, last)) :
      Consumes source n handles store (q :: handles') last
  | derive {handles' : List (Sequence ν)} {store' last : Store ω ν} {s q : Sequence ν} {fuel : Nat}
      (first : Consumes source n handles store handles' store') (among : s ∈ handles')
      (operator : Operator ω ν)
      (result : (operator.apply (.ofSequence s)).share fuel store' = some (q, last)) :
      Consumes source n handles store (q :: handles') last
  | take {handles' : List (Sequence ν)} {store' last : Store ω ν} {q : Sequence ν}
      {count fuel : Nat}
      (first : Consumes source n handles store handles' store') (few : count ≤ n)
      (result : ((Producer.ofSequence source).take count).share fuel store' = some (q, last)) :
      Consumes source n handles store (q :: handles') last

/-- A handle on one of the newer spines, or on an older sequence all nodes of which are allowed. -/
def Open (M : Meaning ν) (allowed : Node → Prop) (bound : Nat) (s : Sequence ν) : Prop :=
  s.Newer bound ∨
    ∀ cells cell, M.Walks s cells (some cell) → cell.node.spine < bound ∧ allowed cell.node

section Guarded

theorem confined_operator (operator : Operator ω ν) (free : Open M allowed bound s) :
    Producer.Confined M allowed bound (operator.apply (.ofSequence s)).step
      (operator.apply (.ofSequence s)).state := by
  have confined : Producer.Confined M allowed bound (Producer.reading (ω := ω)) (.here s) :=
    free.elim Producer.confined_reading_newer Producer.confined_reading
  cases operator with
  | map | filter | dedup | scan | scanFilter | inclusiveScan | exclusiveScan =>
    exact Producer.confined_scanFilter confined
  | entries => exact Producer.confined_scanFilter (Producer.confined_scanFilter confined)
  | takeWhile => exact Producer.confined_takeWhile confined
  | take => exact Producer.confined_take confined
  | flatScan start step run =>
    exact Producer.confined_flatten Producer.alone_play (Producer.confined_scanFilter confined)
  | goOn => exact Producer.confined_append Producer.alone_play confined

structure Contained (M N : Meaning ν) (allowed : Node → Prop) (base store : Store ω ν)
    (source : Sequence ν) (handles : List (Sequence ν)) : Prop where
  leaves : base.Leaves M store N
  guarded : Store.Guarded M allowed base store
  has : store.Has source
  handled : ∀ s ∈ handles, store.Has s ∧ Open M allowed base.spines.size s

theorem Contained.cons {N' : Meaning ν}
    (contained : Contained M N allowed base store source handles)
    (leaves : store.Leaves N store' N') (guarded : Store.Guarded M allowed base store')
    (has : store'.Has s) (free : Open M allowed base.spines.size s) :
    Contained M N' allowed base store' source (s :: handles) := by
  refine ⟨contained.leaves.trans leaves, guarded, leaves.has contained.has, fun t inside => ?_⟩
  rcases List.mem_cons.mp inside with rfl | inside
  · exact ⟨has, free⟩
  · exact ⟨leaves.has (contained.handled t inside).1, (contained.handled t inside).2⟩

theorem Contained.share {p : Producer ω ν ν} {fuel : Nat}
    (contained : Contained M N allowed base store source handles)
    (grounded : Producer.Grounded store.spines.size p.step store.size p.state)
    (confined : Producer.Confined M allowed base.spines.size p.step p.state)
    (result : p.share fuel store = some (s, store')) :
    ∃ N', Contained M N' allowed base store' source (s :: handles) := by
  have leaves := contained.leaves
  have shared := Producer.shared_of_eq_some leaves.ready
    (Producer.shareable_of_grounded grounded) result
  obtain ⟨guarded', newer⟩ :=
    contained.guarded.share leaves.agree leaves.spines leaves.ready grounded confined result
  exact ⟨_, contained.cons shared.leaves guarded' shared.has (Or.inl newer)⟩

theorem Contained.look {cell : Cell ν} {fuel : Nat}
    (contained : Contained M N allowed base store source handles) (among : some cell ∈ handles)
    (result : Store.rest fuel cell.node store = some (s, store')) :
    Contained M N allowed base store' source (s :: handles) := by
  have leaves := contained.leaves
  have guarded := contained.guarded
  obtain ⟨has, here⟩ := contained.handled _ among
  have asking := leaves.ready.asking has
  have found := Store.found_of_rest asking result
  obtain ⟨later, has'⟩ := found.leaves leaves.ready (has cell rfl).1
  rcases here with newer | older
  · obtain ⟨guarded', newer'⟩ := guarded.rest_newer leaves.agree asking (newer cell rfl) result
    exact contained.cons later guarded' has' (Or.inl newer')
  · obtain ⟨before, may⟩ := older [] cell .nil
    refine contained.cons later (guarded.rest_older asking before may result) has'
      (Or.inr fun cells cell' walks => ?_)
    exact older _ cell' (.cons ((leaves.agree.after before).symm.trans found.stands) walks)

theorem Consumes.contained (consumes : Consumes source n handles store handles' store')
    (contained : Contained M N allowed base store source handles)
    (allows : ∀ cells cell, M.Walks source cells (some cell) → cells.length + 1 < n →
      cell.node.spine < base.spines.size ∧ allowed cell.node) :
    ∃ N', Contained M N' allowed base store' source handles' := by
  induction consumes with
  | start => exact ⟨N, contained⟩
  | note _ notes ih =>
    obtain ⟨N', leaves, guarded, has, handled⟩ := ih
    exact ⟨N', leaves.trans (Lazy.leaves_log notes leaves.ready), guarded.log notes, has, handled⟩
  | look _ among result ih =>
    obtain ⟨N', contained'⟩ := ih
    exact ⟨N', contained'.look among result⟩
  | derive _ among operator result ih =>
    obtain ⟨N', contained'⟩ := ih
    obtain ⟨has, here⟩ := contained'.handled _ among
    exact contained'.share (grounded_operator operator has) (confined_operator operator here) result
  | take _ few result ih =>
    obtain ⟨N', contained'⟩ := ih
    refine contained'.share (Producer.grounded_take (Producer.grounded_reading contained'.has)) ?_
      result
    exact Producer.confined_take_reading fun cells cell walks short =>
      allows cells cell walks (short.trans_le few)

end Guarded

section Consumers
variable {fuel : Nat} {held : List (Sequence ν)} {q : Sequence ν}

/-- Some sequences that are at hand after some use of others, or are empty. -/
def Holding (source : Sequence ν) (n : Nat) (handles : List (Sequence ν)) (store : Store ω ν)
    (held : List (Sequence ν)) (store' : Store ω ν) : Prop :=
  ∃ handles', Consumes source n handles store handles' store' ∧ ∀ s ∈ held, s = none ∨ s ∈ handles'

theorem holding_start (among : ∀ s ∈ held, s ∈ handles) :
    Holding source n handles store held store :=
  ⟨handles, .start, fun s inside => Or.inr (among s inside)⟩

theorem Holding.note (holding : Holding source n handles store held store') (notes : List ω) :
    Holding source n handles store held (store'.log notes) := by
  obtain ⟨handles', consumes, among⟩ := holding
  exact ⟨handles', consumes.note notes, among⟩

theorem Holding.drop (holding : Holding source n handles store held store') :
    Holding source n handles store [] store' := by
  obtain ⟨handles', consumes, -⟩ := holding
  exact ⟨handles', consumes, by simp⟩

theorem Holding.swap (holding : Holding source n handles store (s :: t :: held) store') :
    Holding source n handles store (t :: s :: held) store' := by
  obtain ⟨handles', consumes, among⟩ := holding
  exact ⟨handles', consumes, fun q inside => among q ((List.Perm.swap s t held).subset inside)⟩

theorem Holding.rest (holding : Holding source n handles store (s :: held) store')
    (result : Sequence.rest s fuel store' = some (q, last)) :
    Holding source n handles store (q :: held) last := by
  obtain ⟨handles', consumes, among⟩ := holding
  have others (t : Sequence ν) (inside : t ∈ held) : t = none ∨ t ∈ handles' :=
    among t (List.mem_cons_of_mem _ inside)
  cases s with
  | none =>
    cases result
    exact ⟨handles', consumes, among⟩
  | some cell =>
    have here := (among _ List.mem_cons_self).resolve_left (by rintro ⟨⟩)
    refine ⟨q :: handles', consumes.look here result, fun t inside => ?_⟩
    rcases List.mem_cons.mp inside with rfl | inside
    · exact Or.inr List.mem_cons_self
    · exact (others t inside).imp_right (List.mem_cons_of_mem _)

theorem holding_foldM {start value : α} {f : α → ν → Noted ω α} (among : s ∈ handles)
    (result : s.foldM start f fuel store = some (value, last)) :
    Holding source n handles store [] last := by
  refine Lazy.post_of_iterate
    (I := fun state store' => Holding source n handles store [state.2] store')
    (P := fun _ store' => Holding source n handles store [] store') ?_
    (holding_start (by simpa)) result
  rintro ⟨reduced, _ | cell⟩ store₁ r store₂ holding step
  · cases step
    exact holding.drop
  · obtain ⟨next, store₃, noted, step⟩ := Lazy.bind_eq_some.mp step
    cases noted
    obtain ⟨tail, store₄, looked, same⟩ := Lazy.bind_eq_some.mp step
    cases same
    exact (holding.note _).rest looked

theorem holding_iterateWhile {count : Option Nat} {start value : α} {visit : α → ν → α × Bool}
    (among : s ∈ handles)
    (result : s.iterateWhile count start visit fuel store = some (value, last)) :
    Holding source n handles store [] last := by
  refine Lazy.post_of_iterate
    (I := fun state store' => Holding source n handles store [state.2.2] store')
    (P := fun _ store' => Holding source n handles store [] store') ?_
    (holding_start (by simpa)) result
  rintro ⟨state, left, t⟩ store₁ r store₂ holding step
  cases t with
  | none => rcases left with _ | _ | left <;> (cases step; exact holding.drop)
  | some cell =>
    rcases left with _ | _ | left
    case some.zero =>
      cases step
      exact holding.drop
    all_goals
      obtain ⟨tail, store₃, looked, step⟩ := Lazy.bind_eq_some.mp step
      have behind := holding.rest looked
      dsimp only at step
      split at step
      · cases step
        exact behind
      · cases step
        exact behind.drop

theorem holding_dropWhile {drop : ν → Noted ω Bool} (among : s ∈ handles)
    (result : s.dropWhile drop fuel store = some (t, last)) :
    Holding source n handles store [t] last := by
  refine Lazy.post_of_iterate (I := fun s store' => Holding source n handles store [s] store')
    (P := fun t store' => Holding source n handles store [t] store') ?_
    (holding_start (by simpa)) result
  rintro (_ | cell) store₁ r store₂ holding step
  · cases step
    exact holding
  · obtain ⟨dropped, store₃, noted, step⟩ := Lazy.bind_eq_some.mp step
    cases noted
    cases kept : (drop cell.value).value with
    | false =>
      simp only [kept] at step
      cases step
      exact holding.note _
    | true =>
      simp only [kept] at step
      obtain ⟨tail, store₄, looked, same⟩ := Lazy.bind_eq_some.mp step
      cases same
      exact (holding.note _).rest looked

theorem holding_equal {same : ν → ν → Bool} {answer : Bool} (among : s ∈ handles)
    (among' : t ∈ handles) (result : s.equal same t fuel store = some (answer, last)) :
    Holding source n handles store [] last := by
  refine Lazy.post_of_iterate
    (I := fun state store' => Holding source n handles store [state.1, state.2] store')
    (P := fun _ store' => Holding source n handles store [] store') ?_
    (holding_start (by simp [among, among'])) result
  rintro ⟨_ | left, _ | right⟩ store₁ r store₂ holding step
  · cases step
    exact holding.drop
  · cases step
    exact holding.drop
  · cases step
    exact holding.drop
  · dsimp only at step
    split at step
    · cases step
      exact holding.drop
    · split at step
      · cases step
        exact holding.drop
      · obtain ⟨s', store₃, looked, step⟩ := Lazy.bind_eq_some.mp step
        obtain ⟨t', store₄, looked', same⟩ := Lazy.bind_eq_some.mp step
        cases same
        exact ((holding.rest looked).swap.rest looked').swap

end Consumers

end DemandLex.Program
