import DemandLex.Proofs.Sequence.Pulling
import DemandLex.Proofs.Sequence.Taking
import DemandLex.Proofs.StepFunction.Growth

/-! Trees of a limited number of levels. Such a tree takes the breakpoints that fill its levels and
leaves the others, and in a lazy sequence it looks behind those only that it takes. A tree that grows
from a stream has such subtrees hung on, so that it is never further ahead than one breakpoint. -/

namespace DemandLex.LookupTree

open Effect

variable {ω E T : Type} {limit : Nat} {first : T} {s rest : Sequence (Breakpoint E T)}
  {t u : LookupTree E T} {cell : Cell (Breakpoint E T)} {cells : List (Cell (Breakpoint E T))}
  {store store' last : Store ω (Breakpoint E T)} {M : Meaning (Breakpoint E T)}

/-- A tree of a first value and of the breakpoints taken, with a leaf for each of these and one more.
It has no more levels than the limit, and where the breakpoints fill these, all leaves are in the last
one. -/
structure Limited (limit : Nat) (first : T) (taken : List (Breakpoint E T)) (t : LookupTree E T) :
    Prop where
  holds : t.toStepFunction = ⟨first, taken⟩
  leaves : t.leafCount = taken.length + 1
  shallow : t.depth ≤ limit
  filled : taken.length = 2 ^ limit - 1 → t.Full limit ∧ t.depth = limit

section Limited
variable {taken taken' : List (Breakpoint E T)} {b : Breakpoint E T}

theorem limited_leaf : (leaf first : LookupTree E T).Limited 0 first [] :=
  ⟨rfl, rfl, le_rfl, fun _ => ⟨.leaf first, rfl⟩⟩

theorem Limited.weaken (limited : t.Limited limit first taken)
    (few : taken.length ≤ 2 ^ limit - 1) : t.Limited (limit + 1) first taken where
  holds := limited.holds
  leaves := limited.leaves
  shallow := Nat.le_succ_of_le limited.shallow
  filled all := by
    rw [two_pow_succ_sub_one] at all
    omega

theorem Limited.node (left : t.Limited limit first taken) (full : taken.length = 2 ^ limit - 1)
    (right : u.Limited limit b.value taken') :
    (node t b.edge u).Limited (limit + 1) first (taken ++ b :: taken') where
  holds := by simp only [toStepFunction, left.holds, right.holds]
  leaves := by
    rw [leafCount, left.leaves, right.leaves, List.length_append, List.length_cons]
    omega
  shallow := by
    have inLeft := left.shallow
    have inRight := right.shallow
    rw [depth]
    omega
  filled all := by
    rw [two_pow_succ_sub_one, List.length_append, List.length_cons, full] at all
    have whole : (LookupTree.node t b.edge u).Full (limit + 1) :=
      .node b.edge (left.filled full).1 (right.filled (by omega)).1
    exact ⟨whole, whole.depth⟩

theorem exists_limited (first : T) (bs : List (Breakpoint E T)) (limit : Nat) :
    ∃ t, buildLimited splitList first bs limit = pure (t, bs.drop (2 ^ limit - 1)) ∧
      t.Limited limit first (bs.take (2 ^ limit - 1)) := by
  obtain ⟨t, built, reads, filled, full⟩ := exists_buildLimited first bs limit
  have leaves := t.leafCount_eq
  rw [reads] at leaves
  refine ⟨t, built, reads, leaves, filled.depth_le limit ?_, fun all => ?_⟩
  · have some : 0 < 2 ^ limit := Nat.two_pow_pos limit
    rw [leaves, List.length_take]
    omega
  · rw [List.length_take] at all
    have whole := full (by omega)
    exact ⟨whole, whole.depth⟩

end Limited

def hang (left : LookupTree E T) (limit : Nat) (cell : Cell (Breakpoint E T)) :
    Lazy ω (Breakpoint E T) (LookupTree E T × Sequence (Breakpoint E T)) := do
  let tail ← Sequence.rest (some cell)
  (fun built => (node left cell.value.edge built.1, built.2)) <$>
    buildLimited Sequence.splitFirst cell.value.value tail limit

def complete (limit : Nat) (left : LookupTree E T × Sequence (Breakpoint E T)) :
    Lazy ω (Breakpoint E T) (LookupTree E T × Sequence (Breakpoint E T)) :=
  left.2.elim (pure left) (hang left.1 limit)

theorem buildLimited_succ :
    (buildLimited Sequence.splitFirst first s (limit + 1) : Lazy ω (Breakpoint E T) _) =
      buildLimited Sequence.splitFirst first s limit >>= complete limit := by
  rw [buildLimited]
  congr 1
  funext built
  obtain ⟨left, rest⟩ := built
  cases rest with
  | none => rfl
  | some cell =>
    simp only [complete, Option.elim, hang, map_eq_pure_bind]
    exact bind_assoc ..

theorem grow_some :
    (grow Sequence.splitFirst (t, some cell, limit) : Lazy ω (Breakpoint E T) _) =
      (fun built => .inl (built.1, built.2, limit + 1)) <$> hang t limit cell := by
  simp only [hang, map_eq_pure_bind, bind_assoc, pure_bind]
  exact bind_assoc ..

theorem snd_buildLimited (first : T) (s : Sequence (Breakpoint E T)) (limit : Nat) :
    (Prod.snd <$> buildLimited Sequence.splitFirst first s limit : Lazy ω (Breakpoint E T) _) =
      s.advance (2 ^ limit - 1) := by
  induction limit generalizing first s with
  | zero => exact map_pure ..
  | succ limit ih =>
    rw [two_pow_succ_sub_one, Producer.advance_add, ← ih first, buildLimited_succ, map_bind,
      bind_map_left]
    congr 1
    funext built
    obtain ⟨left, rest⟩ := built
    cases rest with
    | none =>
      rw [Producer.advance_none]
      rfl
    | some cell =>
      simp only [complete, Option.elim, hang, Sequence.advance, map_bind, ← ih cell.value.value,
        ← comp_map]
      rfl

theorem steady_buildLimited :
    (buildLimited Sequence.splitFirst first s limit : Lazy ω (Breakpoint E T) _).Steady := by
  induction limit generalizing first s with
  | zero => exact Lazy.steady_pure
  | succ limit ih =>
    rw [buildLimited_succ]
    refine ih.bind fun built => ?_
    obtain ⟨left, rest⟩ := built
    cases rest with
    | none => exact Lazy.steady_pure
    | some cell => exact Sequence.steady_rest.bind fun _ => ih.map

theorem steady_grow (state : LookupTree E T × Sequence (Breakpoint E T) × Nat) :
    (grow Sequence.splitFirst state : Lazy ω (Breakpoint E T) _).Steady := by
  obtain ⟨t, rest, level⟩ := state
  cases rest with
  | none => exact Lazy.steady_pure
  | some cell =>
    rw [grow_some]
    exact (Sequence.steady_rest.bind fun _ => steady_buildLimited.map).map

section Building

theorem doesTo_hang {tail : Sequence (Breakpoint E T)}
    (looks : (Sequence.rest (some cell)).DoesTo store M [.look cell.node] tail store')
    (builds : (buildLimited Sequence.splitFirst cell.value.value tail limit).DoesTo store' M
      (looking cells) (u, rest) last) :
    (hang t limit cell).DoesTo store M (looking (cell :: cells)) (node t cell.value.edge u, rest)
      last :=
  looks.bind builds.map

/-- From a sequence, a tree takes what can be read of it up to the limit, and looks behind just that.
What stands behind it is left as it is. -/
theorem doesTo_buildLimited (first : T) (ready : store.Ready M) (has : store.Has s)
    (reads : M.Reads s (2 ^ limit - 1) cells rest) :
    ∃ t store', (buildLimited Sequence.splitFirst first s limit).DoesTo store M (looking cells)
        (t, rest) store' ∧ store'.Has rest ∧ t.Limited limit first (cells.map Cell.value) := by
  induction limit generalizing first s cells rest store with
  | zero =>
    obtain ⟨walks, places⟩ := reads
    obtain rfl : cells = [] := List.eq_nil_of_length_eq_zero
      (places.resolve_right fun fewer => absurd fewer.1 (Nat.not_lt_zero _))
    cases walks
    exact ⟨leaf first, store, Lazy.doesTo_pure _ ready, has, limited_leaf⟩
  | succ limit ih =>
    rw [two_pow_succ_sub_one] at reads
    rw [buildLimited_succ]
    rcases reads.split with ⟨front, rfl⟩ | ⟨xs, cell, q, ys, rfl, full, front, follows, back⟩
    · -- the sequence ends within the left half or right behind it
      obtain ⟨t, store', builds, has', limited⟩ := ih first ready has front
      have stops := builds.bind (f := complete limit)
        (Lazy.doesTo_pure (t, none) builds.leaves.ready)
      rw [List.append_nil] at stops
      refine ⟨t, store', stops, has', limited.weaken ?_⟩
      rw [List.length_map]
      exact front.2.elim Eq.le fun fewer => fewer.1.le
    · obtain ⟨left, store₁, builds, has₁, limited⟩ := ih first ready has ⟨front, Or.inl full⟩
      obtain ⟨store₂, looks, has₂⟩ := Sequence.doesTo_rest builds.leaves.ready has₁ follows
      obtain ⟨right, store', builds', has', limited'⟩ :=
        ih cell.value.value looks.leaves.ready has₂ back
      refine ⟨node left cell.value.edge right, store', ?_, has', ?_⟩
      · rw [looking_append]
        exact builds.bind (doesTo_hang looks builds')
      · rw [List.map_append]
        exact limited.node (by rw [List.length_map, full]) limited'

theorem doesTo_grow {q : Sequence (Breakpoint E T)} (t : LookupTree E T) (ready : store.Ready M)
    (has : store.Has (some cell)) (follows : M.after cell.node = some q)
    (reads : M.Reads q (2 ^ limit - 1) cells rest) :
    ∃ right store', (grow Sequence.splitFirst (t, some cell, limit)).DoesTo store M
        (looking (cell :: cells)) (.inl (node t cell.value.edge right, rest, limit + 1)) store' ∧
      store'.Has rest ∧ right.Limited limit cell.value.value (cells.map Cell.value) := by
  obtain ⟨store₁, looks, has₁⟩ := Sequence.doesTo_rest ready has follows
  obtain ⟨right, store', builds, has', limited⟩ :=
    doesTo_buildLimited cell.value.value looks.leaves.ready has₁ reads
  rw [grow_some]
  exact ⟨right, store', (doesTo_hang looks builds).map, has', limited⟩

theorem rounds_grow {n : Nat} (first : T) (ready : store.Ready M) (has : store.Has s)
    (walks : M.Walks s cells rest) (count : cells.length = 2 ^ n - 1) :
    ∃ t store', Lazy.Rounds (grow Sequence.splitFirst) M store (leaf first, s, 0) n (looking cells)
        store' (t, rest, n) ∧
      store.Leaves M store' M ∧ store'.Has rest ∧ t.Limited n first (cells.map Cell.value) := by
  induction n generalizing cells rest with
  | zero =>
    obtain rfl : cells = [] := List.eq_nil_of_length_eq_zero count
    cases walks
    exact ⟨leaf first, store, .start, .refl ready, has, limited_leaf⟩
  | succ n ih =>
    have reads : M.Reads s (2 ^ (n + 1) - 1) cells rest := ⟨walks, Or.inl count⟩
    rw [two_pow_succ_sub_one] at reads count
    rcases reads.split with ⟨⟨-, short⟩, -⟩ | ⟨xs, cell, q, ys, rfl, full, front, follows, back⟩
    · omega
    · obtain ⟨t, store₁, rounds, leaves, has₁, limited⟩ := ih front full
      obtain ⟨right, store', grows, has', limited'⟩ :=
        doesTo_grow t leaves.ready has₁ follows back
      refine ⟨node t cell.value.edge right, store', ?_, leaves.trans grows.leaves, has', ?_⟩
      · rw [looking_append]
        exact rounds.more grows
      · rw [List.map_append]
        exact limited.node (by rw [List.length_map, full]) limited'

/-- A tree grows until the breakpoints end, and has then looked behind each of them once. -/
theorem exists_doesTo_iterate_grow (t : LookupTree E T) (level : Nat) (ready : store.Ready M)
    (has : store.Has s) (walks : M.Walks s cells none) :
    ∃ found store', (Lazy.iterate (grow Sequence.splitFirst) (t, s, level)).DoesTo store M
      (looking cells) found store' := by
  -- each round takes the first cell at least, and leaves the others that it has no room for
  induction many : cells.length using Nat.strong_induction_on
    generalizing t level s cells store with
  | _ count ih =>
    subst many
    cases walks with
    | nil => exact ⟨t, store, .iterate (Lazy.doesTo_pure _ ready)⟩
    | @cons cell q _ cells follows tail =>
      obtain ⟨rest, front, back⟩ := tail.reads (2 ^ level - 1) (Or.inl rfl)
      obtain ⟨right, store₁, grows, has₁, -⟩ := doesTo_grow t ready has follows front
      have fewer : (cells.drop (2 ^ level - 1)).length < (cell :: cells).length := by
        rw [List.length_drop, List.length_cons]
        omega
      obtain ⟨found, store', goes⟩ := ih _ fewer (node t cell.value.edge right) (level + 1)
        grows.leaves.ready has₁ back rfl
      have does := (Lazy.Rounds.more .start grows).iterate steady_grow goes
      rw [List.nil_append, ← looking_append, List.cons_append, List.take_append_drop] at does
      exact ⟨found, store', does⟩

theorem does_sequentialTree {f : StepStream E T} (ready : store.Ready M) (has : store.Has f.rest)
    (walks : M.Walks f.rest cells none) :
    f.sequentialTree.Does store M (looking cells) (sequential ⟨f.first, cells.map Cell.value⟩) := by
  obtain ⟨found, store', does⟩ := exists_doesTo_iterate_grow (leaf f.first) 0 ready has walks
  obtain ⟨_, _, _, settles, -, rfl⟩ := StepStream.returns_sequentialTree (s := f) ready
    (f := ⟨f.first, cells.map Cell.value⟩) ⟨rfl, has, walks.holds⟩
  cases does.settles.unique settles
  exact does.does

/-- What is built from a shared producer forces of its sequence the breakpoints taken and the one
behind them, and so do the rounds that grow a full tree of as many levels. -/
theorem builds_of_exposes {p : Producer ω (Breakpoint E T) (Breakpoint E T)}
    {effects : List (Effect ω)} {values : List (Breakpoint E T)}
    {r : Option (Breakpoint E T × p.State)} (first : T) (ready : store.Ready M)
    (grounded : Producer.Grounded store.spines.size p.step store.size p.state)
    (exposes : Producer.Exposes M p.step p.state (2 ^ limit - 1) effects values r) :
    ∃ s store₁ N cells rest store' other,
      Store.Settles (fun fuel => p.share fuel store) (s, store₁) ∧
      cells.map Cell.value = values ∧ rest.first? = r.map Prod.fst ∧
      (∃ t, (buildLimited Sequence.splitFirst first s limit).DoesTo store₁ N (looking cells)
        (t, rest) store' ∧ t.Limited limit first values) ∧
      (values.length = 2 ^ limit - 1 → ∃ t, Lazy.Rounds (grow Sequence.splitFirst) N store₁
        (leaf first, s, 0) limit (looking cells) store' (t, rest, limit) ∧
          t.Limited limit first values) ∧
      store'.forced s = values ++ (r.map Prod.fst).toList ∧
      store.Undergoes effects other ∧ store'.SameBelow store.spines.size other := by
  obtain ⟨s, store₁, N, cells, rest, store', other, shares, leaves, has, reads, rfl, shown, advances,
    forced, undergoes, same⟩ := exposes.reads ready grounded
  refine ⟨s, store₁, N, cells, rest, store', other, shares, rfl, shown, ?_, ?_, forced, undergoes,
    same⟩
  · obtain ⟨t, last, builds, -, limited⟩ := doesTo_buildLimited first leaves.ready has reads
    cases builds.undergoes.unique advances.undergoes
    exact ⟨t, builds, limited⟩
  · intro full
    rw [List.length_map] at full
    obtain ⟨t, last, rounds, -, -, limited⟩ := rounds_grow first leaves.ready has reads.1 full
    cases rounds.undergoes.unique advances.undergoes
    exact ⟨t, rounds, limited⟩

end Building

/-- A tree of a limited number of levels takes just the breakpoints that fill these, or all that there
are, and leaves the others as they are. With a lazy sequence it goes on to where advancing by that many
goes on to, and hangs where that does, so that one breakpoint at most is forced beyond those taken. A
tree that grows from a stream has after each round looked behind just the breakpoints that it holds. -/
theorem buildLimited_takes_levels {ω E T : Type} :
    (∀ (first : T) (bs : List (Breakpoint E T)) (limit : Nat), ∃ t,
      buildLimited splitList first bs limit =
        pure (t, bs.drop (min (2 ^ limit - 1) bs.length)) ∧
      t.Limited limit first (bs.take (min (2 ^ limit - 1) bs.length))) ∧
    (∀ (first : T) (s : Sequence (Breakpoint E T)) (limit : Nat),
      (Prod.snd <$> buildLimited Sequence.splitFirst first s limit : Lazy ω (Breakpoint E T) _) =
        s.advance (2 ^ limit - 1)) ∧
    ∀ {store : Store ω (Breakpoint E T)} {M : Meaning (Breakpoint E T)}, store.Ready M →
      (∀ (first : T) s limit cells last, store.Has s → M.Walks s cells last →
        last = none ∨ 2 ^ limit - 1 ≤ cells.length → ∃ t rest store',
          (buildLimited Sequence.splitFirst first s limit).DoesTo store M
            (looking (cells.take (min (2 ^ limit - 1) cells.length))) (t, rest) store' ∧
          M.Walks rest (cells.drop (min (2 ^ limit - 1) cells.length)) last ∧
          t.Limited limit first
            ((cells.take (min (2 ^ limit - 1) cells.length)).map Cell.value)) ∧
      (∀ (p : Producer ω (Breakpoint E T) (Breakpoint E T)) (first : T) limit effects values r,
        Producer.Grounded store.spines.size p.step store.size p.state →
        Producer.Exposes M p.step p.state (2 ^ limit - 1) effects values r →
        ∃ s store₁ N cells rest store' other,
          Store.Settles (fun fuel => p.share fuel store) (s, store₁) ∧
          cells.map Cell.value = values ∧ rest.first? = r.map Prod.fst ∧
          (∃ t, (buildLimited Sequence.splitFirst first s limit).DoesTo store₁ N (looking cells)
            (t, rest) store' ∧ t.Limited limit first values) ∧
          (values.length = 2 ^ limit - 1 → ∃ t, Lazy.Rounds (grow Sequence.splitFirst) N store₁
            (leaf first, s, 0) limit (looking cells) store' (t, rest, limit) ∧
              t.Limited limit first values) ∧
          store'.forced s = values ++ (r.map Prod.fst).toList ∧
          store.Undergoes effects other ∧ store'.SameBelow store.spines.size other) ∧
      (∀ (f : StepStream E T) n cells rest, store.Has f.rest → M.Walks f.rest cells rest →
        cells.length = 2 ^ n - 1 → ∃ t store',
          Lazy.Rounds (grow Sequence.splitFirst) M store (leaf f.first, f.rest, 0) n
            (looking cells) store' (t, rest, n) ∧
          t.Limited n f.first (cells.map Cell.value)) ∧
      ∀ (f : StepStream E T) cells, store.Has f.rest → M.Walks f.rest cells none →
        f.sequentialTree.Does store M (looking cells)
          (sequential ⟨f.first, cells.map Cell.value⟩) := by
  refine ⟨?_, snd_buildLimited, fun ready => ⟨?_, ?_, ?_, ?_⟩⟩
  · intro first bs limit
    rw [← List.take_eq_take_min, ← List.drop_eq_drop_min]
    exact exists_limited first bs limit
  · intro first s limit cells last has walks enough
    rw [← List.take_eq_take_min, ← List.drop_eq_drop_min]
    obtain ⟨rest, front, back⟩ := walks.reads (2 ^ limit - 1) enough
    obtain ⟨t, store', builds, -, limited⟩ := doesTo_buildLimited first ready has front
    exact ⟨t, rest, store', builds, back, limited⟩
  · intro p first limit effects values r grounded exposes
    exact builds_of_exposes first ready grounded exposes
  · intro f n cells rest has walks count
    obtain ⟨t, store', rounds, -, -, limited⟩ := rounds_grow f.first ready has walks count
    exact ⟨t, store', rounds, limited⟩
  · intro f cells has walks
    exact does_sequentialTree ready has walks

/-- Two levels take three breakpoints of four, behind which they look, and leave the fourth one. Of
the breakpoints of an endless sequence they force four, by growing as well, and a tree that grows from
the four looks behind all. -/
theorem buildLimited_takes_three :
    (∃ t : LookupTree Nat Nat, buildLimited splitList 0 [⟨1, 1⟩, ⟨2, 2⟩, ⟨3, 3⟩, ⟨4, 4⟩] 2 =
      pure (t, [⟨4, 4⟩]) ∧ t.Full 2) ∧
    (∃ (s : Sequence (Breakpoint Nat Nat)) (store : Store Nat (Breakpoint Nat Nat))
      (M : Meaning (Breakpoint Nat Nat)) (a b c d : Cell (Breakpoint Nat Nat)),
      M.Walks s [a, b, c, d] none ∧
      [a, b, c, d].map Cell.value = [⟨1, 1⟩, ⟨2, 2⟩, ⟨3, 3⟩, ⟨4, 4⟩] ∧
      (∃ t store', (buildLimited Sequence.splitFirst 0 s 2).DoesTo store M
        [.look a.node, .look b.node, .look c.node] (t, some d) store' ∧ t.depth = 2) ∧
      (∃ t store', Lazy.Rounds (grow Sequence.splitFirst) M store (leaf 0, s, 0) 1 [.look a.node]
        store' (t, some b, 1) ∧ t.leafCount = 2) ∧
      (StepStream.mk 0 s).sequentialTree.Does store M
        [.look a.node, .look b.node, .look c.node, .look d.node]
        (sequential ⟨0, [⟨1, 1⟩, ⟨2, 2⟩, ⟨3, 3⟩, ⟨4, 4⟩]⟩)) ∧
    ∃ (s : Sequence (Breakpoint Nat Nat)) (store₁ : Store Nat (Breakpoint Nat Nat))
      (N : Meaning (Breakpoint Nat Nat)) (looks : List (Effect Nat))
      (t t' : LookupTree Nat Nat) (rest : Sequence (Breakpoint Nat Nat))
      (store' other : Store Nat (Breakpoint Nat Nat)),
      Store.Settles (fun fuel => (Producer.unfold 0 fun n => ⟨[n], some (⟨n, n⟩, n + 1)⟩).share fuel
        .empty) (s, store₁) ∧
      (buildLimited Sequence.splitFirst 7 s 2).DoesTo store₁ N looks (t, rest) store' ∧
      Lazy.Rounds (grow Sequence.splitFirst) N store₁ (leaf 7, s, 0) 2 looks store' (t', rest, 2) ∧
      rest.first? = some ⟨3, 3⟩ ∧ store'.forced s = [⟨0, 0⟩, ⟨1, 1⟩, ⟨2, 2⟩, ⟨3, 3⟩] ∧
      Store.empty.Undergoes [.note 0, .note 1, .note 2, .note 3] other := by
  obtain ⟨fromList, -, fromSequence⟩ := buildLimited_takes_levels (ω := Nat) (E := Nat) (T := Nat)
  refine ⟨?_, ?_, ?_⟩
  · obtain ⟨t, built, limited⟩ := fromList 0 [⟨1, 1⟩, ⟨2, 2⟩, ⟨3, 3⟩, ⟨4, 4⟩] 2
    exact ⟨t, built, (limited.filled rfl).1⟩
  · obtain ⟨s, store, M, cells, -, ready, has, walks, values⟩ := Store.exists_shared (ω := Nat)
      [(⟨1, 1⟩ : Breakpoint Nat Nat), ⟨2, 2⟩, ⟨3, 3⟩, ⟨4, 4⟩]
    have four := values
    simp only [List.map_eq_cons_iff, List.map_eq_nil_iff] at four
    obtain ⟨a, _, rfl, -, b, _, rfl, -, c, _, rfl, -, d, _, rfl, -, rfl⟩ := four
    obtain ⟨builds, -, grows, whole⟩ := fromSequence ready
    obtain ⟨t, rest, store', does, back, limited⟩ := builds 0 s 2 _ none has walks (Or.inl rfl)
    cases back
    have one : M.Walks s [a] (some b) := walks.until
    obtain ⟨t', last, rounds, grown⟩ := grows ⟨0, s⟩ 1 [a] (some b) has one rfl
    have ends := whole ⟨0, s⟩ _ has walks
    rw [values] at ends
    exact ⟨s, store, M, a, b, c, d, walks, values, ⟨t, store', does, (limited.filled rfl).2⟩,
      ⟨t', last, rounds, grown.leaves⟩, ends⟩
  · obtain ⟨-, builds, -, -⟩ := fromSequence Store.ready_empty
    obtain ⟨s, store₁, N, cells, rest, store', other, shares, -, shown, ⟨t, does, -⟩, grows, forced,
      undergoes, -⟩ := builds (.unfold 0 fun n => ⟨[n], some (⟨n, n⟩, n + 1)⟩) 7 2
        [.note 0, .note 1, .note 2, .note 3] [⟨0, 0⟩, ⟨1, 1⟩, ⟨2, 2⟩] (some (⟨3, 3⟩, (4 : Nat)))
        (Producer.grounded_of_alone Producer.alone_unfold)
        ⟨_, _, _, .cons (.yield rfl) (.cons (.yield rfl) (.cons (.yield rfl) .nil)), .yield rfl, rfl,
          Or.inl rfl⟩
    obtain ⟨t', rounds, -⟩ := grows rfl
    exact ⟨s, store₁, N, _, t, t', rest, store', other, shares, does, rounds, shown, forced,
      undergoes⟩

end DemandLex.LookupTree
