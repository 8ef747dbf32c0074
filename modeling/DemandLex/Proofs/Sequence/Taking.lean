import DemandLex.Proofs.Sequence.Drawing
import DemandLex.Proofs.Sequence.Pulling

/-! The first elements of a sequence. They are exposed as the sequence itself exposes them, and where so
many have been taken nothing is looked at to see that there are no more. -/

namespace DemandLex

open Effect Producer

variable {ω ν α : Type} {M N : Meaning ν} {store store' : Store ω ν}

namespace Producer
variable {p : Producer ω ν α} {count left : Nat} {s : p.State} {effects : List (Effect ω)}

theorem notes_take (count left : Nat) : ((p.take count).step (left + 1, s)).notes = (p.step s).notes := by
  cases move : (p.step s).value <;> simp [take, move, Move.lift]

theorem comes_take_zero {r : Option (α × (p.take count).State)} :
    Comes M (p.take count).step (0, s) effects r ↔ effects = [] ∧ r = none := comes_done rfl

theorem comes_take_succ {r : Option (α × (p.take count).State)} :
    Comes M (p.take count).step (left + 1, s) effects r ↔ ∃ found, Comes M p.step s effects found ∧
      r = found.map fun found => (found.1, (left, found.2)) := by
  constructor
  -- as long as a place is left, the producer moves as the one below it
  · intro comes
    generalize origin : ((left + 1, s) : (p.take count).State) = state at comes
    induction comes generalizing s with
    | yield move =>
      cases origin
      rcases take_cases p count left s with
        ⟨value, next, moved, same⟩ | ⟨_, -, same⟩ | ⟨_, _, -, same⟩ | ⟨-, same⟩ <;>
        rw [same] at move <;> cases move
      rw [notes_take]
      exact ⟨_, .yield moved, rfl⟩
    | done move =>
      cases origin
      rcases take_cases p count left s with
        ⟨_, _, -, same⟩ | ⟨_, -, same⟩ | ⟨_, _, -, same⟩ | ⟨moved, same⟩ <;>
        rw [same] at move <;> cases move
      rw [notes_take]
      exact ⟨none, .done moved, rfl⟩
    | skip move later ih =>
      cases origin
      rcases take_cases p count left s with
        ⟨_, _, -, same⟩ | ⟨next, moved, same⟩ | ⟨_, _, -, same⟩ | ⟨-, same⟩ <;>
        rw [same] at move <;> cases move
      obtain ⟨found, comes, same⟩ := ih rfl
      rw [notes_take]
      exact ⟨found, .skip moved comes, same⟩
    | force move follows later ih =>
      cases origin
      rcases take_cases p count left s with
        ⟨_, _, -, same⟩ | ⟨_, -, same⟩ | ⟨node, resume, moved, same⟩ | ⟨-, same⟩ <;>
        rw [same] at move <;> cases move
      obtain ⟨found, comes, same⟩ := ih rfl
      rw [notes_take]
      exact ⟨found, .force moved follows comes, same⟩
  · rintro ⟨found, comes, rfl⟩
    induction comes with
    | yield move =>
      rw [← notes_take count left]
      exact .yield (take_yield move)
    | done move =>
      rw [← notes_take count left]
      exact .done (take_done move)
    | skip move later ih =>
      rw [← notes_take count left]
      exact .skip (take_skip move) ih
    | force move follows later ih =>
      rw [← notes_take count left]
      exact .force (take_force move) follows ih

theorem runs_take {values : List α} {last : (p.take count).State} :
    Runs M (p.take count).step (left, s) effects values last ↔ ∃ next, values.length ≤ left ∧
      Runs M p.step s effects values next ∧ last = (left - values.length, next) := by
  constructor
  · intro runs
    induction values generalizing left s effects with
    | nil =>
      cases runs
      exact ⟨s, Nat.zero_le _, .nil, rfl⟩
    | cons value values ih =>
      cases runs with
      | cons first later =>
        cases left with
        | zero => obtain ⟨-, ⟨⟩⟩ := comes_take_zero.mp first
        | succ left =>
          obtain ⟨found, comes, same⟩ := comes_take_succ.mp first
          cases found with
          | none => cases same
          | some found =>
            cases same
            obtain ⟨next, fewer, runs, rfl⟩ := ih later
            refine ⟨next, Nat.succ_le_succ fewer, .cons comes runs, ?_⟩
            rw [List.length_cons, Nat.add_sub_add_right]
  · rintro ⟨next, fewer, runs, rfl⟩
    induction runs generalizing left with
    | nil => exact .nil
    | cons first later ih =>
      cases left with
      | zero => cases fewer
      | succ left =>
        rw [List.length_cons, Nat.add_sub_add_right]
        exact .cons (comes_take_succ.mpr ⟨_, first, rfl⟩) (ih (Nat.le_of_succ_le_succ fewer))

end Producer

/-- The first `n` cells of a sequence, or all of them if these are fewer, behind the ones that are
passed on the way. Nothing is said of what stands behind the `n`-th. -/
inductive Sequence.Firsts (M : Meaning ν) (s : Sequence ν) (n : Nat) :
    List (Cell ν) → List (Cell ν) → Prop
  | fewer {cells : List (Cell ν)} (walks : M.Walks s cells none) (few : cells.length < n) :
      Firsts M s n cells cells
  | full {cells : List (Cell ν)} {last : Cell ν} (walks : M.Walks s cells (some last))
      (place : cells.length + 1 = n) : Firsts M s n cells (cells ++ [last])
  | nothing (none_left : n = 0) : Firsts M s n [] []

/-- What is done for the element behind so many others among the first `n` of a sequence, and that
element: the cells before it are passed; no look is made behind the last of the `n`. -/
inductive Sequence.Takes (M : Meaning ν) (s : Sequence ν) (n count : Nat) :
    List (Effect ω) → Option ν → Prop
  | within {cells : List (Cell ν)} {last : Cell ν} (walks : M.Walks s cells (some last))
      (place : cells.length = count) (inside : count < n) :
      Takes M s n count (looking cells) (some last.value)
  | past {passed cells : List (Cell ν)} (firsts : s.Firsts M n passed cells)
      (place : cells.length ≤ count) : Takes M s n count (looking passed) none

namespace Sequence

variable {s t : Sequence ν} {n count : Nat} {effects : List (Effect ω)} {shown : Option ν}

theorem Firsts.ends {passed cells : List (Cell ν)} (firsts : s.Firsts M n passed cells) :
    Ends M ((ofSequence s).take n).step (n, .here s) (looking (ω := ω) passed)
      (cells.map Cell.value) := by
  cases firsts with
  | fewer walks few =>
    obtain ⟨before, behind, last, runs, comes, looks⟩ := runs_reading (ω := ω) walks
    obtain ⟨left, rest⟩ := Nat.exists_eq_add_of_lt few
    refine ⟨before, behind, (left + 1, last), runs_take.mpr ⟨last, ?_, runs, ?_⟩,
      comes_take_succ.mpr ⟨_, comes, rfl⟩, looks⟩
    · rw [List.length_map]
      exact few.le
    · rw [List.length_map, rest, Nat.add_assoc, Nat.add_sub_cancel_left]
  | @full _ last walks place =>
    obtain ⟨before, behind, middle, runs, comes, looks⟩ := runs_reading (ω := ω) walks
    have whole : (passed.map Cell.value ++ [last.value]).length = n := by
      rw [List.length_append, List.length_map, List.length_singleton, place]
    have runs' : Runs M ((ofSequence s).take n).step (n, .here s) (before ++ behind)
        (passed.map Cell.value ++ [last.value]) (0, .after last.node) :=
      runs_take.mpr ⟨_, whole.le, runs.concat comes, by rw [whole, Nat.sub_self]⟩
    rw [List.map_append]
    exact ⟨_, [], _, runs', comes_take_zero.mpr ⟨rfl, rfl⟩, by rw [List.append_nil, looks]⟩
  | nothing none_left =>
    subst none_left
    exact ⟨[], [], _, .nil, comes_take_zero.mpr ⟨rfl, rfl⟩, rfl⟩

theorem Takes.exposes (takes : s.Takes M n count effects shown) :
    ∃ values r, Exposes M ((ofSequence s).take n).step (n, .here s) count effects values r ∧
      r.map Prod.fst = shown := by
  cases takes with
  | @within cells last walks place inside =>
    obtain ⟨before, behind, state, runs, comes, looks⟩ := runs_reading (ω := ω) walks
    obtain ⟨left, rest⟩ := Nat.exists_eq_add_of_lt (place ▸ inside : cells.length < n)
    refine ⟨_, _, ⟨before, behind, (left + 1, state), runs_take.mpr ⟨state, ?_, runs, ?_⟩,
      comes_take_succ.mpr ⟨_, comes, rfl⟩, looks, Or.inl ?_⟩, rfl⟩
    · rw [List.length_map, place]
      exact inside.le
    · rw [List.length_map, rest, Nat.add_assoc, Nat.add_sub_cancel_left]
    · rw [List.length_map, place]
  | past firsts place =>
    obtain ⟨before, behind, last, runs, comes, same⟩ := firsts.ends (ω := ω)
    refine ⟨_, none, ⟨before, behind, last, runs, comes, same, ?_⟩, rfl⟩
    rw [List.length_map]
    exact place.eq_or_lt.imp_right fun fewer => ⟨fewer, rfl⟩

theorem takes_of_exposes {values : List ν}
    {r : Option (ν × ((ofSequence (ω := ω) s).take n).State)}
    (exposes : Exposes M ((ofSequence s).take n).step (n, .here s) count effects values r) :
    s.Takes M n count effects (r.map Prod.fst) := by
  obtain ⟨before, behind, last, runs, comes, rfl, places⟩ := exposes
  obtain ⟨next, fewer, passed, rfl⟩ := runs_take.mp runs
  have bound : values.length ≤ count := places.elim Eq.le fun found => found.1.le
  rcases fewer.lt_or_eq with short | whole
  · obtain ⟨left, rest⟩ := Nat.exists_eq_add_of_lt short
    rw [show n - values.length = left + 1 by omega] at comes
    obtain ⟨found, reads, rfl⟩ := comes_take_succ.mp comes
    obtain ⟨cells, t, walks, looks, rfl, rfl⟩ := walks_of_runs passed reads
    rw [List.length_map] at short places bound
    rw [looks]
    cases t with
    | none => exact .past (.fewer walks short) bound
    | some cell =>
      rcases places with rfl | ⟨-, ⟨⟩⟩
      exact .within walks rfl short
  · rw [whole, Nat.sub_self] at comes
    obtain ⟨rfl, rfl⟩ := comes_take_zero.mp comes
    rw [List.append_nil]
    rcases List.eq_nil_or_concat' values with rfl | ⟨front, value, rfl⟩
    · cases passed
      exact .past (.nothing whole.symm) bound
    · obtain ⟨front', behind', middle, passes, reads, rfl⟩ := passed.of_concat
      obtain ⟨cells, t, walks, looks, rfl, here⟩ := walks_of_runs passes reads
      rw [List.length_append, List.length_map, List.length_singleton] at whole bound
      rw [looks]
      cases t with
      | none => cases here
      | some cell => exact .past (.full walks whole) (by rwa [List.length_append])

theorem shows_take (ready : store.Ready M) (has : store.Has s) (n : Nat) :
    ((ofSequence s).take n).share.Shows store (s.Takes M n) := by
  have grounded : Grounded store.spines.size ((ofSequence s).take n (ω := ω)).step store.size
      (n, .here s) := grounded_take (grounded_reading has)
  refine shows_of_exposes ready grounded fun count effects shown => ?_
  constructor
  · exact Takes.exposes
  · rintro ⟨values, r, exposes, rfl⟩
    exact takes_of_exposes exposes

theorem returns_take {passed cells : List (Cell ν)} (ready : store.Ready M) (has : store.Has s)
    (firsts : s.Firsts M n passed cells) :
    ((ofSequence s).take n).share.Returns store M fun q store' N =>
      q.Lists (cells.map Cell.value) store' N :=
  returns_lists ready (grounded_take (grounded_reading has)) firsts.ends.gives

end Sequence

/-- The cells before the place behind so many others, or all of them if that is past the end. -/
def Meaning.Reads (M : Meaning ν) (s : Sequence ν) (count : Nat) (cells : List (Cell ν))
    (t : Sequence ν) : Prop :=
  M.Walks s cells t ∧ (cells.length = count ∨ cells.length < count ∧ t = none)

section Reads
variable {s t : Sequence ν} {n count fuel : Nat} {cells : List (Cell ν)} {effects : List (Effect ω)}
  {shown : Option ν}

/-- Cells cut at a place. Where they do not go so far, they are all that the sequence has. -/
theorem Meaning.Walks.reads (walks : M.Walks s cells t) (count : Nat)
    (enough : t = none ∨ count ≤ cells.length) :
    ∃ u, M.Reads s count (cells.take count) u ∧ M.Walks u (cells.drop count) t := by
  have parts := walks
  rw [← List.take_append_drop count cells] at parts
  obtain ⟨u, front, back⟩ := parts.of_append
  refine ⟨u, ⟨front, ?_⟩, back⟩
  rcases Nat.lt_or_ge cells.length count with few | more
  · obtain rfl : t = none := enough.resolve_right (Nat.not_le_of_lt few)
    rw [List.drop_of_length_le few.le] at back
    rw [List.take_of_length_le few.le]
    cases back
    exact Or.inr ⟨few, rfl⟩
  · exact Or.inl (List.length_take_of_le more)

/-- What is read up to a place is read up to an earlier one, where it may end; else it goes on behind
the cell that stands there. -/
theorem Meaning.Reads.split {m : Nat} (reads : M.Reads s (m + (n + 1)) cells t) :
    (M.Reads s m cells none ∧ t = none) ∨
      ∃ xs cell q ys, cells = xs ++ cell :: ys ∧ xs.length = m ∧ M.Walks s xs (some cell) ∧
        M.after cell.node = some q ∧ M.Reads q n ys t := by
  obtain ⟨walks, places⟩ := reads
  rcases Nat.lt_or_ge m cells.length with more | few
  · have parts : cells.take m ++ cells[m] :: cells.drop (m + 1) = cells := by
      rw [← List.drop_eq_getElem_cons more, List.take_append_drop]
    rw [← parts] at walks
    obtain ⟨u, front, back⟩ := walks.of_append
    cases back with
    | cons follows tail =>
      refine Or.inr ⟨_, _, _, _, parts.symm, List.length_take_of_le more.le, front, follows, tail, ?_⟩
      rw [List.length_drop]
      exact places.imp (by omega) (And.imp_left (by omega))
  · obtain ⟨-, rfl⟩ := places.resolve_left (by omega)
    exact Or.inl ⟨⟨walks, few.eq_or_lt.imp_right fun fewer => ⟨fewer, rfl⟩⟩, rfl⟩

theorem Meaning.Walks.advance (walks : M.Walks s cells t) (ready : store.Ready M)
    (has : store.Has s) :
    ∃ store', (s.advance cells.length).DoesTo store M (looking cells) t store' ∧ store'.Has t := by
  induction walks generalizing store with
  | nil => exact ⟨store, Lazy.doesTo_pure _ ready, has⟩
  | cons follows tail ih =>
    obtain ⟨store₁, looks, has₁⟩ := Sequence.doesTo_rest ready has follows
    obtain ⟨store', advances, has'⟩ := ih looks.leaves.ready has₁
    exact ⟨store', looks.bind advances, has'⟩

theorem Meaning.Reads.advance (reads : M.Reads s count cells t) (ready : store.Ready M)
    (has : store.Has s) :
    ∃ store', (s.advance count).DoesTo store M (looking cells) t store' ∧ store'.Has t := by
  obtain ⟨walks, places⟩ := reads
  obtain ⟨store', advances, has'⟩ := walks.advance ready has
  rcases places with rfl | ⟨fewer, rfl⟩
  · exact ⟨store', advances, has'⟩
  · obtain ⟨extra, rfl⟩ := Nat.exists_eq_add_of_le fewer.le
    have ended : (Sequence.advance extra (none : Sequence ν)).DoesTo store' M [] none store' := by
      rw [advance_none]
      exact Lazy.doesTo_pure none advances.leaves.ready
    have further := advances.bind ended
    rw [List.append_nil, ← advance_add] at further
    exact ⟨store', further, has'⟩

theorem Meaning.reads_of_advance (ready : store.Ready M) (has : store.Has s)
    (result : s.advance count fuel store = some (t, store')) :
    ∃ cells, M.Reads s count cells t ∧ store.Undergoes (looking cells) store' := by
  induction count generalizing s store with
  | zero =>
    cases result
    exact ⟨[], ⟨.nil, Or.inl rfl⟩, .nil⟩
  | succ count ih =>
    obtain ⟨q, store₁, looks, advances⟩ := Lazy.bind_eq_some.mp result
    cases s with
    | none =>
      cases looks
      cases (steady_advance count none).unique advances (settles_advance_none count)
      exact ⟨[], ⟨.nil, Or.inr ⟨Nat.succ_pos count, rfl⟩⟩, .nil⟩
    | some cell =>
      obtain ⟨leaves, has', follows⟩ := Sequence.after_of_rest ready has looks
      obtain ⟨cells, ⟨walks, places⟩, undergoes⟩ := ih leaves.ready has' advances
      refine ⟨cell :: cells, ⟨.cons follows walks, ?_⟩,
        .look (has cell rfl).2 (Store.steady_rest.settles looks) undergoes⟩
      exact places.imp (congrArg (· + 1)) (And.imp_left Nat.succ_lt_succ)

theorem Sequence.takes_iff : s.Takes M n count effects shown ↔
    ∃ cells t, M.Reads s (min count (n - 1)) cells t ∧ effects = looking cells ∧
      shown = if count < n then t.first? else none := by
  constructor
  · rintro (⟨walks, place, inside⟩ | ⟨⟨walks, few⟩ | ⟨walks, place⟩ | none_left, bound⟩)
    · exact ⟨_, _, ⟨walks, Or.inl (by omega)⟩, rfl, (if_pos inside).symm⟩
    · have here : _ ≤ min count (n - 1) := Nat.le_min.mpr ⟨bound, Nat.le_pred_of_lt few⟩
      exact ⟨_, _, ⟨walks, here.eq_or_lt.imp_right fun fewer => ⟨fewer, rfl⟩⟩, rfl,
        (ite_self none).symm⟩
    · rw [List.length_append, List.length_singleton] at bound
      exact ⟨_, _, ⟨walks, Or.inl (by omega)⟩, rfl, (if_neg (by omega)).symm⟩
    · exact ⟨[], s, ⟨.nil, Or.inl (by simp [none_left])⟩, rfl, (if_neg (by omega)).symm⟩
  · rintro ⟨cells, t, ⟨walks, places⟩, rfl, rfl⟩
    have bound : cells.length ≤ min count (n - 1) := places.elim Eq.le fun found => found.1.le
    rcases Nat.eq_zero_or_pos n with rfl | some_left
    · obtain rfl : cells = [] := List.eq_nil_of_length_eq_zero (by omega)
      exact .past (.nothing rfl) (Nat.zero_le _)
    · cases t with
      | none =>
        rw [show (if count < n then first? none else none) = (none : Option ν) from ite_self none]
        exact .past (.fewer walks (by omega)) (bound.trans (Nat.min_le_left ..))
      | some cell =>
        have place : cells.length = min count (n - 1) := places.resolve_right (by rintro ⟨-, ⟨⟩⟩)
        split
        · exact .within walks (by omega) ‹_›
        · refine .past (.full walks (by omega)) ?_
          rw [List.length_append, List.length_singleton]
          omega

theorem Sequence.takes_take {m : Nat} :
    (∃ there, s.Takes M n (min count (m - 1)) effects there ∧
      shown = if count < m then there else none) ↔ s.Takes M (min m n) count effects shown := by
  have bound : min (min count (m - 1)) (n - 1) = min count (min m n - 1) := by omega
  have within (found : Option ν) :
      (if count < m then if min count (m - 1) < n then found else none else none) =
        if count < min m n then found else none := by
    split_ifs <;> first | rfl | omega
  simp only [takes_iff, bound]
  constructor
  · rintro ⟨there, ⟨cells, t, reads, rfl, rfl⟩, rfl⟩
    exact ⟨cells, t, reads, rfl, within _⟩
  · rintro ⟨cells, t, reads, rfl, rfl⟩
    exact ⟨_, ⟨cells, t, reads, rfl, rfl⟩, (within _).symm⟩

section Exposes
variable {σ : Type} {step : σ → Noted ω (Move ν σ ν)} {start : σ} {values : List ν}
  {r : Option (ν × σ)} {first : Sequence ν} {store₁ : Store ω ν}

theorem Producer.Exposes.walks (exposes : Exposes M step start count effects values r)
    (ready : store.Ready M) (grounded : Grounded store.spines.size step store.size start)
    (shares : share ⟨σ, start, step⟩ fuel store = some (first, store₁)) :
    ∃ N cells, store.Leaves M store₁ N ∧ store₁.Has first ∧
      (∀ cell, first = some cell → cell.node = ⟨store.spines.size, 0⟩) ∧
      N.Reads first count cells (stand store.spines.size values.length none r) ∧
      cells.map Cell.value = values := by
  obtain ⟨before, behind, state, runs, comes, -, places⟩ := exposes
  have shareable : Shareable store ⟨σ, start, step⟩ (pure none) := shareable_of_grounded grounded
  have shared := shared_of_eq_some ready shareable shares
  have extending := extending_pushed ready shareable
  have found := Store.found_of_extend extending shares
  -- in the new meaning the producer runs as it does in the old one
  have agree : M.Agree (meaningWith M store ⟨σ, start, step⟩ (pure none)) store.spines.size :=
    agree_extend
  obtain ⟨runs', sizes, grounded'⟩ := runs.agree grounded agree ready.fits.descends
  have begins (cell : Cell ν) (here : first = some cell) :
      cell.node = ⟨store.spines.size, 0⟩ := by
    obtain ⟨_ | found, -, rfl⟩ := extending.continues.here.mp found.stands <;> cases here
    rfl
  obtain ⟨cells, walks, rfl⟩ := extending.continues.walks found.stands runs'
    (comes.agree grounded' agree ready.fits.descends)
  rw [Nat.zero_add] at walks
  rw [List.length_map] at places walks
  refine ⟨_, cells, shared.leaves, shared.has, begins, ?_, rfl⟩
  rw [List.length_map]
  exact ⟨walks, places.imp_right (And.imp_right (congrArg _))⟩

/-- A shared producer is advanced by as much as it runs through, and by the element behind that. Just
these have then been forced of its sequence, and of the older spines just what it asks for on the way
to them. -/
theorem Producer.Exposes.reads (exposes : Exposes M step start count effects values r)
    (ready : store.Ready M) (grounded : Grounded store.spines.size step store.size start) :
    ∃ first store₁ N cells last store' other,
      Store.Settles (fun fuel => share ⟨σ, start, step⟩ fuel store) (first, store₁) ∧
      store.Leaves M store₁ N ∧ store₁.Has first ∧
      N.Reads first count cells last ∧ cells.map Cell.value = values ∧
      last.first? = r.map Prod.fst ∧
      (first.advance count).DoesTo store₁ N (looking cells) last store' ∧
      store'.forced first = values ++ (r.map Prod.fst).toList ∧
      store.Undergoes effects other ∧ store'.SameBelow store.spines.size other := by
  obtain ⟨_, store', ⟨enough, settles⟩, rfl, grown⟩ := exposes.settles ready grounded
  obtain ⟨other, undergoes, same⟩ := grown.undergoes
  obtain ⟨first, store₁, shares, advances⟩ := Lazy.bind_eq_some.mp (settles enough le_rfl)
  obtain ⟨N, cells, leaves, has, begins, reads, rfl⟩ := exposes.walks ready grounded shares
  obtain ⟨last, reaches, -⟩ := reads.advance leaves.ready has
  cases (steady_advance _ _).unique advances reaches.settles
  refine ⟨first, store₁, N, cells, _, store', other, steady_share.settles shares, leaves, has, reads,
    rfl, ?_, reaches, ?_, undergoes, same⟩
  · cases r <;> rfl
  · cases first with
    | some cell => exact grown.forced (begins cell rfl)
    | none =>
      -- an empty sequence has nothing to force
      obtain ⟨walks, -⟩ := reads
      cases r with
      | none =>
        cases walks
        rfl
      | some found => cases walks

end Exposes

end Reads

section Finding
/-- A computation makes a sequence, and this stands in it behind so many others; nothing does where the
sequence has ended before. -/
def Lazy.Finds (x : Lazy ω ν (Sequence ν)) (store : Store ω ν) (count : Nat) (shown : Option ν) :
    Prop :=
  ∃ front store', Store.Settles (fun fuel => x.expose count fuel store) (front, store') ∧
    front.first? = shown

theorem Lazy.Returns.finds {x : Lazy ω ν (Sequence ν)} {values : List ν}
    (returns : x.Returns store M fun s store' M' => s.Lists values store' M') (count : Nat) :
    x.Finds store count values[count]? := by
  obtain ⟨s, store', M', settles, leaves, has, holds⟩ := returns
  obtain ⟨cells, walks, rfl⟩ := holds.walks
  obtain ⟨passed, t, reads, shown⟩ :
      ∃ passed t, M'.Reads s count passed t ∧ t.first? = (cells.map Cell.value)[count]? := by
    rcases Nat.lt_or_ge count cells.length with inside | past
    · have parts : cells.take count ++ cells[count] :: cells.drop (count + 1) = cells := by
        rw [← List.drop_eq_getElem_cons inside, List.take_append_drop]
      rw [← parts] at walks
      refine ⟨cells.take count, some cells[count], ⟨walks.until, Or.inl ?_⟩, ?_⟩
      · rw [List.length_take, Nat.min_eq_left inside.le]
      · rw [List.getElem?_map, List.getElem?_eq_getElem inside]
        rfl
    · refine ⟨cells, none, ⟨walks, past.eq_or_lt.imp_right fun fewer => ⟨fewer, rfl⟩⟩, ?_⟩
      rw [List.getElem?_eq_none (by rwa [List.length_map])]
      rfl
  obtain ⟨last, advances, -⟩ := reads.advance leaves.ready has
  exact ⟨t, last, Lazy.settles_bind settles advances.settles, shown⟩

theorem Producer.Draws.finds {p : Producer ω ν ν} {asked : List Node} {values : List ν} {value : ν}
    {last : p.State} (draws : Draws M p.step p.state asked (values ++ [value]) last)
    (mute : ∀ s, (p.step s).notes = []) (ready : store.Ready M)
    (grounded : Grounded store.spines.size p.step store.size p.state) :
    p.share.Finds store values.length (some value) := by
  obtain ⟨first, store₁, N, front, store', shares, -, -, -, advances, -, drawn⟩ :=
    Store.share_advance mute ready grounded draws (by simp)
  rw [List.length_append, List.length_singleton, Nat.add_sub_cancel] at advances
  refine ⟨front, store', Lazy.settles_bind shares advances, ?_⟩
  rw [drawn.first?_front, List.getLast?_concat]

end Finding

section Again

theorem Lazy.expose_bind {x : Lazy ω ν (Sequence ν)} {f : Sequence ν → Lazy ω ν (Sequence ν)}
    {count : Nat} : (x >>= f).expose count = x >>= fun q => (f q).expose count := by
  rw [expose, bind_assoc]
  rfl

variable {p : Producer ω ν ν} {n count fuel : Nat} {front : Sequence ν}
  {spec : Nat → List (Effect ω) → Option ν → Prop}

theorem Lazy.Shows.take (shows : p.share.Shows store spec) (ready : store.Ready M)
    (grounded : Grounded store.spines.size p.step store.size p.state) (n : Nat) :
    (do
      let q ← p.share
      ((ofSequence q).take n).share).Shows store fun count effects shown =>
        ∃ there, spec (min count (n - 1)) effects there ∧
          shown = if count < n then there else none := by
  have shareable : Shareable store p (pure none) := shareable_of_grounded grounded
  intro count
  constructor
  · intro fuel front store' result
    rw [Lazy.expose_bind] at result
    obtain ⟨q, store₁, shares, exposes⟩ := Lazy.bind_eq_some.mp result
    have shared := shared_of_eq_some ready shareable shares
    obtain ⟨effects, shown, takes⟩ :=
      (Sequence.shows_take shared.leaves.ready shared.has n count).1 fuel front store' exposes
    obtain ⟨cells, t, reads, -⟩ := Sequence.takes_iff.mp takes
    obtain ⟨last, reaches, -⟩ := reads.advance shared.leaves.ready shared.has
    obtain ⟨enough, exposes⟩ := Lazy.settles_bind (steady_share.settles shares) reaches.settles
    obtain ⟨effects, there, holds⟩ := (shows _).1 enough t last (exposes enough le_rfl)
    exact ⟨effects, _, there, holds, rfl⟩
  · rintro effects shown ⟨there, holds, rfl⟩
    obtain ⟨t, last, other, ⟨enough, exposes⟩, rfl, undergoes, same⟩ :=
      (shows _).2 effects there holds
    obtain ⟨q, store₁, shares, advances⟩ := Lazy.bind_eq_some.mp (exposes enough le_rfl)
    have shared := shared_of_eq_some ready shareable shares
    obtain ⟨cells, reads, looks⟩ :=
      Meaning.reads_of_advance shared.leaves.ready shared.has advances
    obtain ⟨front, store', last', settles, found, looks', same'⟩ :=
      (Sequence.shows_take shared.leaves.ready shared.has n count).2 _ _
        (Sequence.takes_iff.mpr ⟨cells, t, reads, rfl, rfl⟩)
    cases looks.unique looks'
    refine ⟨front, store', other, ?_, found, undergoes,
      (same'.weaken shared.leaves.spines).trans same⟩
    rw [Lazy.expose_bind]
    exact Lazy.settles_bind (steady_share.settles shares) settles

theorem Sequence.shows_take_take {s : Sequence ν} (ready : store.Ready M) (has : store.Has s)
    (n m : Nat) :
    (do
      let q ← ((ofSequence s).take n).share
      ((ofSequence q).take m).share).Shows store (s.Takes M (min m n)) := by
  have grounded : Grounded store.spines.size ((ofSequence s).take n (ω := ω)).step store.size
      (n, .here s) := grounded_take (grounded_reading has)
  simpa only [takes_take] using (shows_take ready has n).take ready grounded m

end Again

end DemandLex
