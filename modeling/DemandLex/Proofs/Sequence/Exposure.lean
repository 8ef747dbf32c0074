import DemandLex.Proofs.Sequence.Effects

/-! Exposing elements. What a shared producer does to the store for its elements is what it does on its
own on the way to them, and nothing of it is done before an element is asked for that needs it. -/

namespace DemandLex

variable {ω ν σ : Type} {M N : Meaning ν}

open Effect

namespace Lazy

def expose (x : Lazy ω ν (Sequence ν)) (count : Nat) : Lazy ω ν (Sequence ν) := do
  let first ← x
  Sequence.advance count first

/-- What exposing the elements of a sequence shows. It comes back just where the specification has
something to show, shows that, and does to what was there before just what the specification says. -/
def Shows (x : Lazy ω ν (Sequence ν)) (store : Store ω ν)
    (spec : Nat → List (Effect ω) → Option ν → Prop) : Prop :=
  ∀ count,
    (∀ fuel front store', x.expose count fuel store = some (front, store') →
      ∃ effects shown, spec count effects shown) ∧
    ∀ effects shown, spec count effects shown → ∃ front store' other,
      Store.Settles (fun fuel => x.expose count fuel store) (front, store') ∧
      front.first? = shown ∧
      store.Undergoes effects other ∧ store'.SameBelow store.spines.size other

theorem Shows.noted {α : Type} {y : Lazy ω ν (Sequence ν)} {step : Noted ω α} {store : Store ω ν}
    {spec : Nat → List (Effect ω) → Option ν → Prop}
    (shows : y.Shows (store.log step.notes) spec) :
    (noted step >>= fun _ => y).Shows store fun count effects shown =>
      ∃ later, effects = noting step.notes ++ later ∧ spec count later shown := by
  intro count
  obtain ⟨come, comes⟩ := shows count
  constructor
  · intro fuel front store' result
    obtain ⟨later, shown, holds⟩ := come fuel front store' result
    exact ⟨_, shown, later, rfl, holds⟩
  · rintro _ shown ⟨later, rfl, holds⟩
    obtain ⟨front, store', other, settles, same, undergoes, below⟩ := comes later shown holds
    exact ⟨front, store', other, settles, same, Store.undergoes_noting.mpr undergoes, below⟩

end Lazy

namespace Store

variable {store store' other other' last : Store ω ν} {effects effects' : List (Effect ω)}

def resting (elements : Array ν) (step : σ → Noted ω (Move ν σ ν)) (tail : Noted ω (Sequence ν)) :
    Option (ν × σ) → Spine ω ν
  | some (value, next) => ⟨elements.push value, .suspended ⟨σ, next, step⟩ tail⟩
  | none => ⟨elements, .closed tail.value⟩

def closing (tail : Noted ω (Sequence ν)) : Option (ν × σ) → List (Effect ω)
  | some _ => []
  | none => noting tail.notes

@[simp] theorem closing_none {r : Option (ν × σ)} :
    closing (pure none : Noted ω (Sequence ν)) r = [] := by
  cases r <;> rfl

section Extend
variable {step : σ → Noted ω (Move ν σ ν)} {s next : σ} {r : Option (ν × σ)} {place : Node}
  {tail : Noted ω (Sequence ν)} {elements : Array ν}

/-- An extension of a spine does to the older ones just what its producer does. -/
theorem extend_comes (extending : Extending N store place ⟨σ, s, step⟩ tail)
    (agree : M.Agree N place.spine) (comes : Producer.Comes M step s effects r)
    (same : store.SameBelow place.spine other)
    (present : store.spines[place.spine]? = some ⟨elements, .running⟩) :
    ∃ store' other', Settles (fun fuel => extend fuel place.spine ⟨σ, s, step⟩ tail store)
        (Producer.stand place.spine place.index tail.value r, store') ∧
      other.Undergoes (effects ++ closing tail r) other' ∧ store'.SameBelow place.spine other' ∧
      store'.spines[place.spine]? = some (resting elements step tail r) := by
  induction comes generalizing store other with
  | @yield s next value move =>
    refine ⟨_, other.log (step s).notes, settles_yield extending move, ?_, ?_, ?_⟩
    · rw [closing, List.append_nil]
      exact undergoes_log
    · exact (same.log _).modified_newer _ le_rfl spines_push rfl
    · exact getElem?_push present
  | @done s move =>
    refine ⟨_, (other.log (step s).notes).log tail.notes, settles_done move, ?_, ?_, ?_⟩
    · exact undergoes_noting.mpr undergoes_log
    · exact ((same.log _).log tail.notes).modified_newer _ le_rfl spines_setFrontier rfl
    · exact getElem?_setFrontier present
  | @skip s next effects r move later ih =>
    obtain ⟨store', other', settles, undergoes, same', rests⟩ :=
      ih ((extending.log (step s).notes).skip move) (same.log _) present
    refine ⟨store', other', settles_skip move settles, ?_, same', rests⟩
    rw [List.append_assoc]
    exact undergoes_noting.mpr undergoes
  | @force s node resume q effects r move follows later ih =>
    have logged := extending.log (step s).notes
    obtain ⟨older, asking⟩ := logged.asking move
    have follows' : N.after node = some q := (agree.after older).trans follows
    obtain ⟨middle, answers⟩ := rest_settles asking follows'
    obtain ⟨middle', answers', same₁⟩ := (same.log _).rest_settles asking older answers
    have answer := found_of_settles asking answers
    obtain ⟨store', other', settles, undergoes, same', rests⟩ :=
      ih (logged.resume move answer) same₁ ((answer.grows.same _ older).trans present)
    refine ⟨store', other', settles_force move answers settles, ?_, same', rests⟩
    rw [List.append_assoc, undergoes_noting]
    exact .look ((same.log _).size older ▸ asking.computed) answers' undergoes

theorem rest_comes {node : Node} (agree : M.Agree N node.spine) (asking : Asking N store node)
    (present : store.spines[node.spine]? = some ⟨elements, .suspended ⟨σ, s, step⟩ tail⟩)
    (last : elements.size = node.index + 1) (comes : Producer.Comes M step s effects r)
    (same : store.SameBelow node.spine other) :
    ∃ store' other', Settles (fun fuel => rest fuel node store)
        (Producer.stand node.spine (node.index + 1) tail.value r, store') ∧
      other.Undergoes (effects ++ closing tail r) other' ∧ store'.SameBelow node.spine other' ∧
      store'.spines[node.spine]? = some (resting elements step tail r) := by
  obtain ⟨extending, -⟩ := asking.extending present last
  have begun : (store.begin node).SameBelow node.spine other :=
    same.modified_newer _ le_rfl spines_begin rfl
  obtain ⟨store', other', settles, undergoes, same', rests⟩ :=
    extend_comes extending agree comes begun (getElem?_begin present)
  have beyond : elements[node.index + 1]? = none := Array.getElem?_eq_none last.le
  exact ⟨store', other', settles_run present beyond settles, undergoes, same', rests⟩

/-- A spine in which a producer has come to rest behind these elements, where the older spines are as
the effects alone leave them. -/
structure Grown (store other : Store ω ν) (effects : List (Effect ω)) (id : Nat)
    (step : σ → Noted ω (Move ν σ ν)) (tail : Noted ω (Sequence ν)) (values : List ν)
    (r : Option (ν × σ)) : Prop where
  present : store.spines[id]? = some (resting values.toArray step tail r)
  undergone : ∃ other', other.Undergoes (effects ++ closing tail r) other' ∧
    store.SameBelow id other'

section Grown
variable {id : Nat} {value : ν} {values values' : List ν} {behind : List (Effect ω)} {s' : σ}

theorem Grown.has (grown : store.Grown other effects id step tail values (some (value, next))) :
    store.Has (some ⟨value, id, values.length⟩) := by
  rintro cell ⟨⟩
  refine ⟨(Array.getElem?_eq_some_iff.mp grown.present).1, ?_⟩
  rw [size_eq grown.present]
  simp [resting]

theorem Grown.undergoes (grown : store.Grown other effects id step (pure none) values r) :
    ∃ other', other.Undergoes effects other' ∧ store.SameBelow id other' := by
  obtain ⟨other', undergoes, same⟩ := grown.undergone
  rw [closing_none, List.append_nil] at undergoes
  exact ⟨other', undergoes, same⟩

theorem Grown.forced {cell : Cell ν} (grown : store.Grown other effects id step tail values r)
    (first : cell.node = ⟨id, 0⟩) :
    store.forced (some cell) = values ++ (r.map Prod.fst).toList := by
  rw [Store.forced, first, grown.present]
  cases r <;> simp [resting]

theorem Grown.rest (grown : store.Grown other effects id step tail values (some (value, next)))
    (agree : M.Agree N id) (ready : store.Ready N) (comes : Producer.Comes M step next effects' r) :
    ∃ store', Settles (fun fuel => Sequence.rest (some ⟨value, id, values.length⟩) fuel store)
        (Producer.stand id (values.length + 1) tail.value r, store') ∧
      store.Leaves N store' N ∧
      store'.Has (Producer.stand id (values.length + 1) tail.value r) ∧
      store'.Grown other (effects ++ effects') id step tail (values ++ [value]) r := by
  have has := grown.has
  obtain ⟨present, middle, undergone, same⟩ := grown
  have asking : Asking N store ⟨id, values.length⟩ := ready.asking has
  obtain ⟨store', other', settles, undergoes, same', rests⟩ :=
    rest_comes agree asking present (by simp) comes same
  obtain ⟨leaves, has'⟩ := (found_of_settles asking settles).leaves ready (has _ rfl).1
  refine ⟨store', settles, leaves, has', ?_, other', ?_, same'⟩
  · rw [rests, List.push_toArray]
  · rw [closing, List.append_nil] at undergone
    rw [List.append_assoc]
    exact undergone.append undergoes

theorem Grown.advance (grown : store.Grown other effects id step tail values (some (value, next)))
    (agree : M.Agree N id) (ready : store.Ready N)
    (runs : Producer.Runs M step next effects' values' s')
    (comes : Producer.Comes M step s' behind r) :
    ∃ front store', Settles (fun fuel => Sequence.advance (values'.length + 1)
        (some ⟨value, id, values.length⟩) fuel store) (front, store') ∧
      front = Producer.stand id (values ++ value :: values').length tail.value r ∧
      store.Leaves N store' N ∧ store'.Has front ∧
      store'.Grown other (effects ++ (effects' ++ behind)) id step tail (values ++ value :: values')
        r := by
  induction runs generalizing store effects values value with
  | nil =>
    obtain ⟨store', rests, leaves, has, grown'⟩ := grown.rest agree ready comes
    exact ⟨_, store', Lazy.settles_bind rests ⟨0, fun _ _ => rfl⟩, by simp, leaves, has, grown'⟩
  | @cons s next' s' value' values' effects₁ effects₂ first later ih =>
    obtain ⟨store₁, rests, leaves, -, grown₁⟩ := grown.rest agree ready first
    obtain ⟨front, store', advances, stands, leaves', has, grown'⟩ := ih grown₁ leaves.ready comes
    have place : (values ++ [value]).length = values.length + 1 := by simp
    rw [place] at advances
    simp only [List.append_assoc, List.singleton_append] at stands grown'
    refine ⟨front, store', Lazy.settles_bind rests advances, stands, leaves.trans leaves', has, ?_⟩
    simpa only [List.append_assoc] using grown'

end Grown

end Extend

section Share
variable {step : σ → Noted ω (Move ν σ ν)} {s s' : σ} {r : Option (ν × σ)}
  {tail : Noted ω (Sequence ν)} {values : List ν}

theorem share_comes (ready : store.Ready M) (shareable : Producer.Shareable store ⟨σ, s, step⟩ tail)
    (comes : Producer.Comes M step s effects r) :
    ∃ store' N, Settles (fun fuel => Producer.shareBefore ⟨σ, s, step⟩ tail fuel store)
        (Producer.stand store.spines.size 0 tail.value r, store') ∧
      Producer.Shared M store ⟨σ, s, step⟩ tail
        (Producer.stand store.spines.size 0 tail.value r) store' N ∧
      store'.Grown store effects store.spines.size step tail [] r := by
  have extending := Producer.extending_pushed ready shareable
  have agree : M.Agree (Producer.meaningWith M store ⟨σ, s, step⟩ tail) store.spines.size :=
    Producer.agree_extend
  have begun : (store.pushed ⟨#[], .running⟩).SameBelow store.spines.size store := .pushed le_rfl
  obtain ⟨store', other', ⟨enough, settles⟩, undergoes, same, rests⟩ :=
    extend_comes extending agree comes begun getElem?_pushed_new
  have shared := Producer.shared_of_eq_some ready shareable (settles enough le_rfl)
  exact ⟨store', _, ⟨enough, settles⟩, shared, rests, other', undergoes, same⟩

theorem share_runs (ready : store.Ready M) (shareable : Producer.Shareable store ⟨σ, s, step⟩ tail)
    (runs : Producer.Runs M step s effects values s') (comes : Producer.Comes M step s' effects' r) :
    ∃ front store' N,
      Settles (fun fuel =>
        (Producer.shareBefore ⟨σ, s, step⟩ tail).expose values.length fuel store)
        (front, store') ∧
      front = Producer.stand store.spines.size values.length tail.value r ∧
      store.Leaves M store' N ∧ store'.Has front ∧
      store'.Grown store (effects ++ effects') store.spines.size step tail values r := by
  cases runs with
  | nil =>
    obtain ⟨store', N, shares, shared, grown⟩ := share_comes ready shareable comes
    exact ⟨_, store', N, Lazy.settles_bind shares ⟨0, fun _ _ => rfl⟩, rfl, shared.leaves,
      shared.has, grown⟩
  | cons first later =>
    obtain ⟨store₁, N, shares, shared, grown⟩ := share_comes ready shareable first
    obtain ⟨front, store', advances, stands, leaves, has, grown'⟩ :=
      grown.advance shared.leaves.agree shared.leaves.ready later comes
    rw [List.append_assoc]
    exact ⟨front, store', N, Lazy.settles_bind shares advances, stands, shared.leaves.trans leaves,
      has, grown'⟩

end Share

end Store

namespace Producer

section Continues
variable {step : σ → Noted ω (Move ν σ ν)} {s : σ} {store store' : Store ω ν} {q front : Sequence ν}
  {id index count fuel : Nat}

/-- What a producer runs through stands in its spine. -/
theorem Continues.walks {tail : Sequence ν} {effects behind : List (Effect ω)} {values : List ν}
    {last : σ} {r : Option (ν × σ)} (continues : Continues N id index step s tail)
    (stands : N ⟨id, index⟩ = some q) (runs : Runs N step s effects values last)
    (comes : Comes N step last behind r) :
    ∃ cells, N.Walks q cells (stand id (index + values.length) tail r) ∧
      cells.map Cell.value = values := by
  induction runs generalizing index q with
  | nil =>
    obtain ⟨r', reached, rfl⟩ := continues.here.mp stands
    cases reached.unique comes.reaches
    exact ⟨[], .nil, rfl⟩
  | @cons s next last value values before after first later ih =>
    obtain ⟨r', reached, rfl⟩ := continues.here.mp stands
    cases reached.unique first.reaches
    have further := continues.behind reached
    obtain ⟨_, r', second⟩ := later.first comes
    have follows := further.here.mpr ⟨r', second.reaches, rfl⟩
    obtain ⟨cells, walks, same⟩ := ih further follows comes
    rw [List.length_cons, Nat.add_comm values.length, ← Nat.add_assoc]
    exact ⟨_ :: cells, .cons follows walks, congrArg _ same⟩

theorem Continues.exposes {tail : Sequence ν} (continues : Continues N id index step s tail)
    (ready : store.Ready N)
    (has : store.Has q) (stands : N ⟨id, index⟩ = some q)
    (result : Sequence.advance count q fuel store = some (front, store')) :
    ∃ effects values r, Exposes N step s count effects values r := by
  induction count generalizing store index q s with
  | zero =>
    obtain ⟨r, reached, rfl⟩ := continues.here.mp stands
    obtain ⟨effects, comes⟩ := reached.comes
    exact ⟨_, [], r, [], effects, s, .nil, comes, rfl, Or.inl rfl⟩
  | succ count ih =>
    obtain ⟨r, reached, rfl⟩ := continues.here.mp stands
    obtain ⟨effects, comes⟩ := reached.comes
    cases r with
    | none => exact ⟨_, [], none, [], effects, s, .nil, comes, rfl, Or.inr ⟨Nat.succ_pos _, rfl⟩⟩
    | some found =>
      obtain ⟨value, next⟩ := found
      obtain ⟨t, store₁, rests, result'⟩ := Lazy.bind_eq_some.mp result
      obtain ⟨leaves, has', follows⟩ := Sequence.after_of_rest ready has rests
      obtain ⟨later, values, r, exposes⟩ :=
        ih (continues.behind reached) leaves.ready has' follows result'
      exact ⟨_, _, r, .pass comes exposes⟩

end Continues

section Expose
variable {step : σ → Noted ω (Move ν σ ν)} {s : σ} {store store' : Store ω ν}
  {effects : List (Effect ω)} {values : List ν} {r : Option (ν × σ)} {count fuel : Nat}

theorem advance_none (count : Nat) :
    Sequence.advance count none = (pure none : Lazy ω ν (Sequence ν)) := by
  induction count with
  | zero => rfl
  | succ count ih => rw [Sequence.advance, Sequence.rest, pure_bind, ih]

theorem settles_advance_none (count : Nat) :
    Store.Settles (fun fuel => Sequence.advance count none fuel store)
      ((none : Sequence ν), store) := by
  rw [advance_none]
  exact ⟨0, fun _ _ => rfl⟩

theorem advance_add {first second : Nat} {s : Sequence ν} :
    Sequence.advance (first + second) s =
      (Sequence.advance first s >>= Sequence.advance second : Lazy ω ν (Sequence ν)) := by
  induction first generalizing s with
  | zero => rw [Nat.zero_add, Sequence.advance, pure_bind]
  | succ first ih =>
    rw [Nat.succ_add]
    simp only [Sequence.advance, bind_assoc, ih]

theorem steady_advance (count : Nat) (s : Sequence ν) :
    (s.advance count : Lazy ω ν (Sequence ν)).Steady := by
  induction count generalizing s with
  | zero => exact Lazy.steady_pure
  | succ count ih => exact Sequence.steady_rest.bind ih

/-- A sequence that is advanced to its end is listed with no more than that. -/
theorem settles_toList {s : Sequence ν}
    (advances : Store.Settles (fun fuel => s.advance count fuel store) (none, store')) :
    ∃ values, Store.Settles (fun fuel => s.toList fuel store) (values, store') := by
  suffices ∀ items : Array ν, ∃ values, Store.Settles (fun fuel =>
      s.foldM items (fun items value => pure (items.push value)) fuel store) (values, store') by
    obtain ⟨values, settles⟩ := this #[]
    exact ⟨values.toList, Lazy.settles_bind settles ⟨0, fun _ _ => rfl⟩⟩
  intro items
  induction count generalizing s store items with
  | zero =>
    obtain ⟨enough, same⟩ := advances
    cases same enough le_rfl
    exact ⟨items, Lazy.settles_iterate_last ⟨0, fun _ _ => rfl⟩⟩
  | succ count ih =>
    obtain ⟨enough, settles⟩ := advances
    obtain ⟨q, store₁, looks, advances⟩ := Lazy.bind_eq_some.mp (settles enough le_rfl)
    cases s with
    | none =>
      cases looks
      cases (steady_advance count none).unique advances (settles_advance_none count)
      exact ⟨items, Lazy.settles_iterate_last ⟨0, fun _ _ => rfl⟩⟩
    | some cell =>
      have rests := Sequence.steady_rest.settles looks
      obtain ⟨values, later⟩ :=
        ih ((steady_advance count q).settles advances) (items.push cell.value)
      refine ⟨values, Lazy.settles_iterate ?_ (Lazy.settles_bind ⟨0, fun _ _ => rfl⟩
        (Lazy.settles_bind rests ⟨0, fun _ _ => rfl⟩)) later⟩
      rintro ⟨reduced, _ | cell⟩
      · exact Lazy.steady_pure
      · exact Lazy.steady_noted.bind fun _ => Sequence.steady_rest.bind fun _ => Lazy.steady_pure

/-- Exposing an element does to the older spines just what the producer does on the way to it. -/
theorem Exposes.settles (exposes : Exposes M step s count effects values r) (ready : store.Ready M)
    (grounded : Grounded store.spines.size step store.size s) :
    ∃ front store',
      Store.Settles (fun fuel => (share ⟨σ, s, step⟩).expose count fuel store) (front, store') ∧
      front = stand store.spines.size values.length none r ∧
      store'.Grown store effects store.spines.size step (pure none) values r := by
  obtain ⟨before, behind, last, runs, comes, rfl, places⟩ := exposes
  obtain ⟨front, store', -, ⟨enough, settles⟩, stands, -, -, grown⟩ :=
    Store.share_runs ready (shareable_of_grounded grounded) runs comes
  refine ⟨front, store', ?_, stands, grown⟩
  rcases places with rfl | ⟨fewer, rfl⟩
  · exact ⟨enough, settles⟩
  · obtain ⟨extra, rfl⟩ := Nat.exists_eq_add_of_lt fewer
    cases stands
    have splits : (share ⟨σ, s, step⟩).expose (values.length + extra + 1) =
        ((share ⟨σ, s, step⟩).expose values.length >>= Sequence.advance (extra + 1) :
          Lazy ω ν (Sequence ν)) := by
      rw [Lazy.expose, Lazy.expose, bind_assoc, Nat.add_assoc]
      simp only [advance_add]
    rw [splits]
    exact Lazy.settles_bind ⟨enough, settles⟩ (settles_advance_none _)

theorem exposes_of_expose {front : Sequence ν} {tail : Noted ω (Sequence ν)}
    (ready : store.Ready M) (shareable : Shareable store ⟨σ, s, step⟩ tail)
    (result : (shareBefore ⟨σ, s, step⟩ tail).expose count fuel store = some (front, store')) :
    ∃ effects values r, Exposes M step s count effects values r := by
  obtain ⟨first, store₁, shares, advances⟩ := Lazy.bind_eq_some.mp result
  have extending := extending_pushed ready shareable
  have found := Store.found_of_extend extending shares
  have shared := shared_of_eq_some ready shareable shares
  have agree : M.Agree (meaningWith M store ⟨σ, s, step⟩ tail) store.spines.size := agree_extend
  obtain ⟨effects, values, r, before, behind, last, runs, comes, same, places⟩ :=
    extending.continues.exposes shared.leaves.ready shared.has found.stands advances
  have descends := agree.descends ready.fits.descends
  obtain ⟨runs', sizes, grounded'⟩ := runs.agree shareable.grounded agree.symm descends
  exact ⟨effects, values, r, before, behind, last, runs',
    comes.agree grounded' agree.symm descends, same, places⟩

theorem shows_of_exposes {spec : Nat → List (Effect ω) → Option ν → Prop} (ready : store.Ready M)
    (grounded : Grounded store.spines.size step store.size s)
    (same : ∀ count effects shown, spec count effects shown ↔
      ∃ values r, Exposes M step s count effects values r ∧ r.map Prod.fst = shown) :
    (share ⟨σ, s, step⟩).Shows store spec := by
  intro count
  constructor
  · intro fuel front store' result
    obtain ⟨effects, values, r, exposes⟩ :=
      exposes_of_expose ready (shareable_of_grounded grounded) result
    exact ⟨effects, _, (same _ _ _).mpr ⟨values, r, exposes, rfl⟩⟩
  · intro effects shown holds
    obtain ⟨values, r, exposes, rfl⟩ := (same _ _ _).mp holds
    obtain ⟨front, store', settles, rfl, grown⟩ := exposes.settles ready grounded
    obtain ⟨other, undergoes, same⟩ := grown.undergoes
    refine ⟨_, store', other, settles, ?_, undergoes, same⟩
    cases r <;> rfl

theorem comes_of_shareBefore {q : Sequence ν} {tail : Noted ω (Sequence ν)} (ready : store.Ready M)
    (shareable : Shareable store ⟨σ, s, step⟩ tail)
    (result : shareBefore ⟨σ, s, step⟩ tail fuel store = some (q, store')) :
    ∃ effects r, Comes M step s effects r := by
  have exposed : (shareBefore ⟨σ, s, step⟩ tail).expose 0 fuel store = some (q, store') :=
    Lazy.bind_eq_some.mpr ⟨q, store', result, rfl⟩
  obtain ⟨effects, values, r, exposes⟩ := exposes_of_expose ready shareable exposed
  exact exposes.first

theorem grown_of_share {p : Producer ω ν ν} {q : Sequence ν} (ready : store.Ready M)
    (grounded : Grounded store.spines.size p.step store.size p.state)
    (result : p.share fuel store = some (q, store')) :
    ∃ effects r N, Comes M p.step p.state effects r ∧ store.Leaves M store' N ∧
      store'.Grown store effects store.spines.size p.step (pure none) [] r := by
  obtain ⟨σ, s, step⟩ := p
  have shareable := shareable_of_grounded grounded
  obtain ⟨effects, r, comes⟩ := comes_of_shareBefore ready shareable result
  obtain ⟨last, N, settles, shared, grown⟩ := Store.share_comes ready shareable comes
  cases steady_share.unique result settles
  exact ⟨effects, r, N, comes, shared.leaves, grown⟩

end Expose

end Producer

end DemandLex
