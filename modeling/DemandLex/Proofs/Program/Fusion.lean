import DemandLex.Program.Sequences
import DemandLex.Proofs.Sequence.Feeding
import DemandLex.Proofs.Sequence.Observation

/-! Fusion of scans. However many scans stand one behind the other, no use tells the last of them from
the one scan that runs their steps in turn, element by element: none of them runs ahead of the
others. -/

namespace DemandLex

variable {ω ν : Type} {M : Meaning ν} {store : Store ω ν}

namespace Lazy
variable {x y : Lazy ω ν (Sequence ν)} {spec : Nat → List (Effect ω) → Option ν → Prop}

theorem used_ahead {count fuel : Nat} {handles : List (Sequence ν)} {store' : Store ω ν} :
    x.used [] [.ahead 0 count] fuel store = some (handles, store') ↔
      ∃ first front middle, x fuel store = some (first, middle) ∧
        Sequence.advance count first fuel middle = some (front, store') ∧
        handles = [first, front] := by
  constructor
  · intro result
    obtain ⟨first, middle, came, uses⟩ := bind_eq_some.mp result
    obtain ⟨_, _, acted, done⟩ := bind_eq_some.mp uses
    obtain ⟨front, _, advances, given⟩ := bind_eq_some.mp acted
    cases given
    cases done
    exact ⟨first, front, middle, came, advances, rfl⟩
  · rintro ⟨first, front, middle, came, advances, rfl⟩
    have acted : Sequence.use [first] (.ahead 0 count) fuel middle =
        some ([first, front], store') := bind_eq_some.mpr ⟨front, store', advances, rfl⟩
    exact bind_eq_some.mpr ⟨first, middle, came, bind_eq_some.mpr ⟨_, store', acted, rfl⟩⟩

theorem Shows.of_indistinguishable (shows : y.Shows store spec)
    (same : x.Indistinguishable y store) : x.Shows store spec := by
  intro count
  obtain ⟨come, comes⟩ := shows count
  obtain ⟨covers, covers'⟩ := same
  have alone : ∀ s ∈ ([] : List (Sequence ν)), store.Has s := by rintro s ⟨⟩
  constructor
  · intro fuel front store' result
    obtain ⟨first, middle, came, advances⟩ := bind_eq_some.mp result
    obtain ⟨handles, right, ⟨enough, settles⟩, -, -⟩ := covers' [] [.ahead 0 count] alone fuel _ _
      (used_ahead.mpr ⟨first, front, middle, came, advances, rfl⟩)
    obtain ⟨first', front', middle', came', advances', -⟩ := used_ahead.mp (settles enough le_rfl)
    exact come enough front' right (bind_eq_some.mpr ⟨first', middle', came', advances'⟩)
  · intro effects shown holds
    obtain ⟨front, left, other, ⟨enough, settles⟩, rfl, undergoes, before⟩ := comes effects shown holds
    obtain ⟨first, middle, came, advances⟩ := bind_eq_some.mp (settles enough le_rfl)
    obtain ⟨handles, right, ⟨enough', settles'⟩, fronts, after⟩ :=
      covers [] [.ahead 0 count] alone enough _ _
        (used_ahead.mpr ⟨first, front, middle, came, advances, rfl⟩)
    obtain ⟨first', front', middle', came', advances', rfl⟩ :=
      used_ahead.mp (settles' enough' le_rfl)
    have exposed : Store.Settles (fun fuel => x.expose count fuel store) (front', right) := by
      refine ⟨enough', fun fuel more => ?_⟩
      obtain ⟨first, front, middle, came, advances, given⟩ := used_ahead.mp (settles' fuel more)
      cases given
      exact bind_eq_some.mpr ⟨_, middle, came, advances⟩
    obtain ⟨-, same⟩ : first'.first? = first.first? ∧ front'.first? = front.first? := by
      simpa using fronts
    exact ⟨front', right, other, exposed, same, undergoes, after.symm.trans before⟩

end Lazy

namespace Scanner
variable {α β : Type}

def map (f : α → Noted ω β) : Scanner ω α β := ⟨Unit, (), fun _ value => do
  let output ← f value
  pure ((), some output)⟩

def entries : Scanner ω α (Nat × α) := ⟨Nat, 0, fun index value =>
  pure (index + 1, some (index, value))⟩

end Scanner

namespace Program

open Producer

namespace Operator

/-- What an operator puts behind its source, where the operator is a scan. -/
def scanner? : Operator ω ν → Option (Scanner ω ν ν)
  | map f => some (.map f)
  | filter keep => some ⟨Unit, (), fun _ value => do
    let kept ← keep value
    pure ((), if kept then some value else none)⟩
  | dedup equal => some ⟨Option ν, none, fun kept value =>
    match kept with
    | none => pure (some value, some value)
    | some last => do
      if ← equal last value then pure (some last, none) else pure (some value, some value)⟩
  | entries pair => some (Scanner.entries.andThen (.map fun (index, value) => pure (pair index value)))
  | scan start f => some ⟨ν, start, fun reduced value => do
    let next ← f reduced value
    pure (next, some next)⟩
  | scanFilter start step => some ⟨_, start, step⟩
  | inclusiveScan m => some ⟨m.State, m.state, fun s value => do
    let next ← m.next s value
    pure (next, some (m.output next))⟩
  | exclusiveScan m => some ⟨m.State, m.state, fun s value => do
    let next ← m.next s value
    pure (next, some (m.output s))⟩
  | takeWhile _ | take _ | flatScan .. | goOn .. => none

def alike (p : Producer ω ν ν) :
    (operator : Operator ω ν) → (g : Scanner ω ν ν) → operator.scanner? = some g →
      (operator.apply p).Alike (p.through g)
  | map _, _, rfl => .refl _
  | filter _, _, rfl => .refl _
  | dedup _, _, rfl => .refl _
  | entries _, _, rfl => .fused p .entries (.map _)
  | scan _ _, _, rfl => .refl _
  | scanFilter _ _, _, rfl => .refl _
  | inclusiveScan _, _, rfl => .refl _
  | exclusiveScan _, _, rfl => .refl _

def chain : List (Operator ω ν) → Sequence ν → Lazy ω ν (Sequence ν)
  | [], s => pure s
  | operator :: later, s => do
    let q ← (operator.apply (.ofSequence s)).share
    chain later q

section Chain
variable {x : Lazy ω ν (Sequence ν)} {p : Producer ω ν ν} {g : Scanner ω ν ν} {s : Sequence ν}
  {R : Store ω ν → Node → Array ν → (p.through g).State → Prop}

theorem grounded_scanner {operator : Operator ω ν} {bound : Nat} {sizes : Nat → Nat}
    (given : operator.scanner? = some g) (within : s.Within bound sizes) :
    Grounded bound (operator.apply (.ofSequence s)).step sizes
      (operator.apply (.ofSequence s)).state := by
  have grounded := grounded_reading (ω := ω) within
  cases operator with
  | map | filter | dedup | scan | scanFilter | inclusiveScan | exclusiveScan =>
    exact grounded_scanFilter grounded
  | entries => exact grounded_scanFilter (grounded_scanFilter grounded)
  | takeWhile | take | flatScan | goOn => cases given

/-- Every further operator is fused with the scan before it. -/
theorem builds_chain {operators : List (Operator ω ν)} {scanners : List (Scanner ω ν ν)}
    (builds : Store.Builds M store x (p.through g) R)
    (given : operators.map scanner? = scanners.map some) :
    ∃ R', Store.Builds M store (x >>= chain operators) (p.through (g.fuse scanners)) R' := by
  induction operators generalizing x g R scanners with
  | nil =>
    cases scanners with
    | nil =>
      refine ⟨R, ?_⟩
      have same : (x >>= chain ([] : List (Operator ω ν))) = x := bind_pure x
      rw [same]
      exact builds
    | cons => cases given
  | cons operator operators ih =>
    cases scanners with
    | nil => cases given
    | cons h scanners =>
      obtain ⟨given, later⟩ := List.cons.inj given
      have behind := (Store.builds_behind builds (fun t => operator.alike (.ofSequence t) h given)
        (grounded_scanner given)).congr (.fused p g h)
      have same : (x >>= chain (operator :: operators)) =
          ((x >>= fun q => (operator.apply (.ofSequence q)).share) >>= chain operators) := by
        rw [bind_assoc]
        rfl
      rw [same]
      exact ih (g := g.andThen h) behind later

end Chain

end Operator

section Fusion
variable {s : Sequence ν}

theorem grounded_through {bound : Nat} {sizes : Nat → Nat} {g : Scanner ω ν ν}
    (within : s.Within bound sizes) : Grounded bound ((ofSequence s).through g).step sizes
      ((ofSequence s).through g).state := by
  have grounded : Grounded bound ((ofSequence s).scanFilter g.start g.step).step sizes
      (.here s, g.start) := grounded_scanFilter (grounded_reading within)
  exact grounded

theorem shows_through (ready : store.Ready M) (has : store.Has s) (g : Scanner ω ν ν) :
    ((ofSequence s).through g).share.Shows store (g.Demands M g.start s) :=
  shows_of_exposes ready (grounded_through has) fun _ _ _ => Scanner.demands_iff_exposes

theorem builds_through (ready : store.Ready M) (has : store.Has s) (g : Scanner ω ν ν) :
    Store.Builds M store ((ofSequence s).through g).share ((ofSequence s).through g)
      (Store.Direct ((ofSequence s).through g) store.spines.size) :=
  Store.builds_share ready (grounded_through has)

def scanTwice (s : Sequence ν) (g h : Scanner ω ν ν) : Lazy ω ν (Sequence ν) := do
  let q ← ((ofSequence s).scanFilter g.start g.step).share
  ((ofSequence q).scanFilter h.start h.step).share

/-- Fusion of scans. No use tells a scan of a scan from the single scan whose step runs the first step
and then, if that gave an output, the second one; and an element of it is exposed by just the looks at
the source up to the element that yields it, with one call of that step for each of these. The same goes
for any operators that are scans, one behind the other. -/
theorem fuses_scans (ready : store.Ready M) (has : store.Has s) :
    (∀ g h : Scanner ω ν ν,
      (scanTwice s g h).Indistinguishable
        ((ofSequence s).scanFilter (g.andThen h).start (g.andThen h).step).share store ∧
      (scanTwice s g h).Shows store ((g.andThen h).Demands M (g.andThen h).start s)) ∧
    ∀ operator operators g scanners, Operator.scanner? operator = some g →
      operators.map Operator.scanner? = scanners.map some →
      (Operator.chain (operator :: operators) s).Indistinguishable
        ((ofSequence s).through (g.fuse scanners)).share store ∧
      (Operator.chain (operator :: operators) s).Shows store
        ((g.fuse scanners).Demands M (g.fuse scanners).start s) := by
  refine ⟨fun g h => ?_, ?_⟩
  · have twice := (Store.builds_behind (builds_through ready has g)
      (fun t => Alike.refl ((ofSequence t).through h)) grounded_through).congr (.fused _ g h)
    have same : (scanTwice s g h).Indistinguishable
        ((ofSequence s).through (g.andThen h)).share store :=
      Store.indistinguishable_of_builds twice (builds_through ready has (g.andThen h))
    exact ⟨same, (shows_through ready has (g.andThen h)).of_indistinguishable same⟩
  · intro operator operators g scanners given later
    have first := (Store.builds_share ready
      (Operator.grounded_scanner given has)).congr (operator.alike (.ofSequence s) g given)
    obtain ⟨R, builds⟩ := Operator.builds_chain first later
    have same : (Operator.chain (operator :: operators) s).Indistinguishable
        ((ofSequence s).through (g.fuse scanners)).share store :=
      Store.indistinguishable_of_builds builds (builds_through ready has (g.fuse scanners))
    exact ⟨same, (shows_through ready has (g.fuse scanners)).of_indistinguishable same⟩

def keepPositive : Nat → Noted Nat Bool
  | 0 => ⟨[0], false⟩
  | n + 1 => ⟨[n + 1], true⟩

def addUp (sum n : Nat) : Noted Nat Nat := ⟨[10 * n], sum + n⟩

/-- The sums of the positive ones of 0, 2 and 3: the first one needs two elements, the second one all of
them. -/
theorem fuses_scans_positive_sums :
    ∃ (s : Sequence Nat) (store : Store Nat Nat) (M : Meaning Nat) (first second third : Cell Nat),
      Store.Settles (fun fuel => (ofList [0, 2, 3]).share fuel .empty) (s, store) ∧
      store.Ready M ∧ store.Has s ∧ M.Walks s [first, second, third] none ∧
      (∃ front store' other,
        Store.Settles (fun fuel => (Operator.chain [.filter keepPositive, .scan 0 addUp] s).expose 0
          fuel store) (front, store') ∧
        front.first? = some 2 ∧
        store.Undergoes [.note 0, .look first.node, .note 2, .note 20] other ∧
        store'.SameBelow store.spines.size other) ∧
      ∃ front store' other,
        Store.Settles (fun fuel => (Operator.chain [.filter keepPositive, .scan 0 addUp] s).expose 1
          fuel store) (front, store') ∧
        front.first? = some 5 ∧
        store.Undergoes [.note 0, .look first.node, .note 2, .note 20, .look second.node, .note 3,
          .note 30] other ∧
        store'.SameBelow store.spines.size other := by
  obtain ⟨s, store, M, cells, settles, ready, has, walks, values⟩ :=
    Store.exists_shared (ω := Nat) [0, 2, 3]
  obtain ⟨⟨_, first⟩, ⟨_, second⟩, ⟨_, third⟩, rfl⟩ := List.length_eq_three.mp
    (by rw [← List.length_map (f := Cell.value), values]; rfl)
  cases values
  obtain ⟨-, shows⟩ := (fuses_scans ready has).2 (.filter keepPositive) [.scan 0 addUp] _ [_] rfl rfl
  have two : M.Walks s [⟨0, first⟩] (some ⟨2, second⟩) := walks.until
  have three : M.Walks s [⟨0, first⟩, ⟨2, second⟩] (some ⟨3, third⟩) := walks.until
  exact ⟨s, store, M, ⟨0, first⟩, ⟨2, second⟩, ⟨3, third⟩, settles, ready, has, walks,
    (shows 0).2 _ _ (Scanner.Demands.within two rfl rfl rfl),
    (shows 1).2 _ _ (Scanner.Demands.within three rfl rfl rfl)⟩

end Fusion

end Program

end DemandLex
