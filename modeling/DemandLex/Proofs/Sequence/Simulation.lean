import DemandLex.Proofs.Sequence.Scanner

/-! Sequences that stand for a producer. A sequence may be made through several spines, each of which
reads the one before. It stands for one producer if looking behind its last element does to the older
spines what that producer does on the way to its next element. -/

namespace DemandLex

namespace Store

open Effect Producer

variable {ω ν : Type} {M N : Meaning ν} {bound id : Nat} {store store' other : Store ω ν}
  {p : Producer ω ν ν} {R : Store ω ν → Node → Array ν → p.State → Prop}

/-- What a look behind a node finds, and what it leaves of the spine, where a producer comes to rest. -/
inductive After (R : Store ω ν → Node → Array ν → p.State → Prop) (node : Node) (elements : Array ν)
    (store : Store ω ν) : Sequence ν → Option (ν × p.State) → Prop
  | some {value : ν} {next : p.State}
      (goes : R store ⟨node.spine, node.index + 1⟩ (elements.push value) next) :
      After R node elements store (some ⟨value, node.spine, node.index + 1⟩) (some (value, next))
  | none (closed : store.spines[node.spine]? = some ⟨elements, .closed none⟩) :
      After R node elements store none none

/-- `R` says of a node that the elements of its spine end there, and from which state of the producer
the spine goes on. -/
structure Simulates (M : Meaning ν) (bound : Nat) (p : Producer ω ν ν)
    (R : Store ω ν → Node → Array ν → p.State → Prop) : Prop where
  present {store : Store ω ν} {node : Node} {elements : Array ν} {s : p.State} :
    R store node elements s → bound ≤ node.spine ∧ elements.size = node.index + 1 ∧
      ∃ source tail, store.spines[node.spine]? = some ⟨elements, .suspended source tail⟩
  frame {store store' : Store ω ν} {node : Node} {elements : Array ν} {s : p.State} :
    R store node elements s →
    (∀ id, bound ≤ id → id ≤ node.spine → store'.spines[id]? = store.spines[id]?) →
    R store' node elements s
  comes {N : Meaning ν} {store : Store ω ν} {node : Node} {elements : Array ν} {s : p.State}
    {q : Sequence ν} :
    R store node elements s → Asking N store node → M.Agree N bound → N.after node = some q →
    ∃ effects r, Comes M p.step s effects r
  rests {N : Meaning ν} {store other : Store ω ν} {node : Node} {elements : Array ν} {s : p.State}
    {effects : List (Effect ω)} {r : Option (ν × p.State)} :
    R store node elements s → Asking N store node → M.Agree N bound → store.SameBelow bound other →
    Comes M p.step s effects r → ∃ q store' other',
      Settles (fun fuel => rest fuel node store) (q, store') ∧
      other.Undergoes effects other' ∧ store'.SameBelow bound other' ∧
      After R node elements store' q r

section Direct

def Direct (p : Producer ω ν ν) (bound : Nat) (store : Store ω ν) (node : Node) (elements : Array ν)
    (s : p.State) : Prop :=
  node.spine = bound ∧ elements.size = node.index + 1 ∧
    store.spines[node.spine]? = some ⟨elements, .suspended { p with state := s } (pure none)⟩

/-- What stands behind the last element of a spine is what its producer comes to. -/
theorem Asking.reaches {node : Node} {elements : Array ν} {tail : Noted ω (Sequence ν)}
    {q : Sequence ν} (asking : Asking N store node)
    (present : store.spines[node.spine]? = some ⟨elements, .suspended p tail⟩)
    (last : elements.size = node.index + 1) (stands : N.after node = some q) :
    (∃ r, Reaches N p.step p.state r) ∧ Grounded node.spine p.step store.size p.state := by
  obtain ⟨continues, grounded, -⟩ := last ▸ asking.fits.frontier _ _ present
  obtain ⟨r, reached, -⟩ := continues.here.mp stands
  exact ⟨⟨r, reached⟩, grounded⟩

theorem simulates_direct : Simulates M bound p (Direct p bound) where
  present := by
    rintro store node elements s ⟨rfl, last, present⟩
    exact ⟨le_rfl, last, _, _, present⟩
  frame := by
    rintro store store' node elements s ⟨rfl, last, present⟩ same
    exact ⟨rfl, last, (same _ le_rfl le_rfl).trans present⟩
  comes := by
    rintro N store node elements s q ⟨rfl, last, present⟩ asking agree stands
    obtain ⟨⟨r, reached⟩, grounded⟩ := asking.reaches present last stands
    have descends := asking.fits.descends.weaken asking.inside.le
    obtain ⟨effects, comes⟩ := (reached.agree grounded agree.symm descends).comes
    exact ⟨effects, r, comes⟩
  rests := by
    rintro N store other node elements s effects r ⟨rfl, last, present⟩ asking agree same comes
    obtain ⟨store', other', settles, undergoes, same', rests⟩ :=
      rest_comes agree asking present last comes same
    rw [closing_none, List.append_nil] at undergoes
    refine ⟨_, store', other', settles, undergoes, same', ?_⟩
    cases r with
    | none => exact .none rests
    | some found => exact .some ⟨rfl, by rw [Array.size_push, last], rests⟩

end Direct

theorem Simulates.congr {p' : Producer ω ν ν} (simulates : Simulates M bound p R)
    (alike : p.Alike p') :
    Simulates M bound p' fun store node elements t => R store node elements (alike.back t) where
  present := simulates.present
  frame := simulates.frame
  comes := by
    intro N store node elements t q goes asking agree stands
    obtain ⟨effects, r, comes⟩ := simulates.comes goes asking agree stands
    exact ⟨effects, _, alike.comes_of_back comes⟩
  rests := by
    intro N store other node elements t effects r goes asking agree same comes
    obtain ⟨q, store', other', settles, undergoes, same', after⟩ :=
      simulates.rests goes asking agree same (alike.symm.comes comes)
    refine ⟨q, store', other', settles, undergoes, same', ?_⟩
    cases r with
    | none =>
      cases after with
      | none closed => exact .none closed
    | some found =>
      cases after with
      | some goes => exact .some goes

section Behind

inductive Rested (N : Meaning ν) (R : Store ω ν → Node → Array ν → p.State → Prop) (id : Nat)
    (store : Store ω ν) : Sequence ν → Option (ν × p.State) → Prop
  | some {index : Nat} {elements : Array ν} {value : ν} {next : p.State}
      (goes : R store ⟨id, index⟩ elements next) (asking : Asking N store ⟨id, index⟩) :
      Rested N R id store (some ⟨value, id, index⟩) (some (value, next))
  | none : Rested N R id store none none

variable {g : Scanner ω ν ν} {carried : g.State} {behind : List (Effect ω)} {q : Sequence ν}
  {found : Option (ν × p.State)} {r : Option (ν × (p.State × g.State))}

theorem Simulates.asking {node : Node} {elements : Array ν} {s : p.State}
    (simulates : Simulates M bound p R) (goes : R store node elements s) (fits : store.Fits N)
    (idle : store.Idle (node.spine + 1)) : Asking N store node := by
  obtain ⟨-, last, source, tail, present⟩ := simulates.present goes
  exact ⟨fits, idle, by rw [size_eq present, last]; exact Nat.lt_succ_self _⟩

theorem Simulates.asking_of_ready {node : Node} {elements : Array ν} {s : p.State}
    (simulates : Simulates M bound p R) (goes : R store node elements s) (ready : store.Ready N) :
    Asking N store node := by
  obtain ⟨-, -, source, tail, present⟩ := simulates.present goes
  exact simulates.asking goes ready.fits
    (ready.idle.weaken (Array.getElem?_eq_some_iff.mp present).1)

theorem Simulates.rested {index : Nat} {elements : Array ν} (simulates : Simulates M bound p R)
    (answer : Found N ⟨id, index + 1⟩ store q store')
    (after : After R ⟨id, index⟩ elements store' q found) : Rested N R id store' q found := by
  cases after with
  | some goes => exact .some goes (simulates.asking goes answer.fits answer.idle)
  | none => exact .none

/-- What a scanner behind a sequence does, it does behind the producer as well: the looks at the sequence
do to the older spines what the producer does. -/
theorem Simulates.follows (simulates : Simulates M bound p R) (agree : M.Agree N bound)
    (reacts : Reacts M p.step g.step found carried behind r)
    (rested : Rested N R id store q found) (same : store.SameBelow bound other) :
    ∃ behind' r' store' other',
      Reacts N reading g.step (readingAt q) carried behind' r' ∧ store.Undergoes behind' store' ∧
      other.Undergoes behind other' ∧ store'.SameBelow bound other' ∧
      ((r = none ∧ r' = none) ∨ ∃ output next carried' index elements,
        r = some (output, (next, carried')) ∧ r' = some (output, (.after ⟨id, index⟩, carried')) ∧
        R store' ⟨id, index⟩ elements next) := by
  induction reacts generalizing store other q with
  | stop =>
    cases rested with
    | none => exact ⟨[], none, store, other, .stop, .nil, .nil, same, Or.inl ⟨rfl, rfl⟩⟩
  | @give value next carried carried' output given =>
    cases rested with
    | some goes asking =>
      refine ⟨_, _, _, _, .give given, undergoes_log, undergoes_log, same.log _,
        Or.inr ⟨output, next, carried', _, _, rfl, rfl, simulates.frame goes fun _ _ _ => rfl⟩⟩
  | @absorb value next carried carried' found effects effects' r given comes later ih =>
    cases rested with
    | @some index elements _ _ goes asking =>
      have logged : Asking N (store.log (g.step carried value).notes) ⟨id, index⟩ :=
        ⟨asking.fits.congr rfl, asking.idle.congr rfl, asking.computed⟩
      have goes' : R (store.log (g.step carried value).notes) ⟨id, index⟩ elements next :=
        simulates.frame goes fun _ _ _ => rfl
      obtain ⟨q₁, store₁, other₁, settles, undergoes, same₁, after⟩ :=
        simulates.rests goes' logged agree (same.log _) comes
      have answer := found_of_settles logged settles
      obtain ⟨behind', r', store', other', reacts', undergoes', undergone, same', ends⟩ :=
        ih (simulates.rested answer after) same₁
      refine ⟨_, r', store', other', .absorb given
        (comes_reading_after.mpr ⟨q₁, answer.stands, rfl, rfl⟩) reacts', ?_, ?_, same', ends⟩
      · exact undergoes_noting.mpr (.look logged.computed settles undergoes')
      · exact undergoes_noting.mpr (undergoes.append undergone)

theorem Simulates.next {index : Nat} {elements : Array ν} {s : p.State}
    (simulates : Simulates M bound p R) (agree : M.Agree N bound)
    (goes : R store ⟨id, index⟩ elements s) (asking : Asking N store ⟨id, index⟩)
    (stands : N.after ⟨id, index⟩ = some q) :
    ∃ effects found store', Comes M p.step s effects found ∧ Rested N R id store' q found := by
  obtain ⟨effects, found, comes⟩ := simulates.comes goes asking agree stands
  obtain ⟨q', store', other', settles, -, -, after⟩ :=
    simulates.rests goes asking agree (.refl _) comes
  have answer := found_of_settles asking settles
  cases answer.stands.symm.trans stands
  exact ⟨effects, found, store', comes, simulates.rested answer after⟩

/-- Wherever a scanner behind the sequence comes to rest, it does so behind the producer. -/
theorem Simulates.leads {found' : Option (ν × Reading ν)} {r' : Option (ν × (Reading ν × g.State))}
    (simulates : Simulates M bound p R) (agree : M.Agree N bound)
    (reacts : Reacts N reading g.step found' carried behind r') (here : found' = readingAt q)
    (rested : Rested N R id store q found) :
    ∃ behind r, Reacts M p.step g.step found carried behind r := by
  induction reacts generalizing store q found with
  | stop =>
    cases rested with
    | some => cases here
    | none => exact ⟨[], none, .stop⟩
  | give given =>
    cases rested with
    | some =>
      cases here
      exact ⟨_, _, .give given⟩
    | none => cases here
  | absorb given comes later ih =>
    cases rested with
    | some goes asking =>
      cases here
      obtain ⟨q₁, stands, rfl, rfl⟩ := comes_reading_after.mp comes
      obtain ⟨effects, found, store₁, comes', rested'⟩ := simulates.next agree goes asking stands
      obtain ⟨behind, r, reacts⟩ := ih rfl rested'
      exact ⟨_, r, .absorb given comes' reacts⟩
    | none => cases here

variable {A : Sequence ν → Producer ω ν ν}

/-- A spine that reads a sequence through a scanner, where the sequence stands for a producer. -/
def Behind (R : Store ω ν → Node → Array ν → p.State → Prop)
    (alike : ∀ t, (A t).Alike ((ofSequence t).through g)) (store : Store ω ν) (node : Node)
    (elements : Array ν) (s : (p.through g).State) : Prop :=
  ∃ inner before t, R store inner before s.1 ∧ inner.spine < node.spine ∧
    elements.size = node.index + 1 ∧ store.spines[node.spine]? = some ⟨elements,
      .suspended { A t with state := (alike t).back (.after inner, s.2) } (pure none)⟩

theorem simulates_behind (simulates : Simulates M bound p R)
    (alike : ∀ t, (A t).Alike ((ofSequence t).through g)) :
    Simulates M bound (p.through g) (Behind R alike) where
  present := by
    rintro store node elements s ⟨inner, before, t, goes, newer, last, present⟩
    exact ⟨(simulates.present goes).1.trans newer.le, last, _, _, present⟩
  frame := by
    rintro store store' node elements s ⟨inner, before, t, goes, newer, last, present⟩ same
    have older := (simulates.present goes).1.trans newer.le
    exact ⟨inner, before, t, simulates.frame goes fun id from_bound upto =>
      same id from_bound (upto.trans newer.le), newer, last, (same _ older le_rfl).trans present⟩
  comes := by
    rintro N store node elements ⟨s, carried⟩ q ⟨inner, before, t, goes, newer, last, present⟩ asking
      agree stands
    obtain ⟨⟨r, reached⟩, -⟩ := asking.reaches present last stands
    -- the producer behind looks at the inner node first, and then reacts to what it finds
    obtain ⟨effects, comes⟩ := reached.comes
    have through : Comes N ((ofSequence t).through g).step (.after inner, carried) effects _ :=
      (alike t).comes_of_back comes
    obtain ⟨_, found, behind, reads, reacts, -⟩ := comes_scanFilter.mp through
    obtain ⟨q₁, stands₁, -, rfl⟩ := comes_reading_after.mp reads
    have asking₁ := simulates.asking goes asking.fits (asking.idle.weaken (Nat.succ_le_succ newer.le))
    obtain ⟨_, found, store₁, comes₁, rested⟩ := simulates.next agree goes asking₁ stands₁
    obtain ⟨behind', r', reacts'⟩ := simulates.leads agree reacts rfl rested
    exact ⟨_, r', comes_scanFilter.mpr ⟨_, found, behind', comes₁, reacts', rfl⟩⟩
  rests := by
    rintro N store other node elements ⟨s, carried⟩ effects r
      ⟨inner, before, t, goes, newer, last, present⟩ asking agree same comes
    obtain ⟨first, found, behind, comes₁, reacts, rfl⟩ := comes_scanFilter.mp comes
    have asking₁ := simulates.asking goes asking.fits (asking.idle.weaken (Nat.succ_le_succ newer.le))
    obtain ⟨q₁, store₁, other₁, settles, undergoes, same₁, after⟩ :=
      simulates.rests goes asking₁ agree same comes₁
    have answer := found_of_settles asking₁ settles
    obtain ⟨behind', r', store₂, other₂, reacts', undergoes', undergone, same₂, ends⟩ :=
      simulates.follows agree reacts (simulates.rested answer after) same₁
    have through : Comes N ((ofSequence t).through g).step (.after inner, carried)
        ([.look inner] ++ behind') r' := comes_scanFilter.mpr
      ⟨_, _, behind', comes_reading_after.mpr ⟨q₁, answer.stands, rfl, rfl⟩, reacts', rfl⟩
    obtain ⟨store', other', settles', looks, same', rests⟩ :=
      rest_comes (fun _ _ => rfl) asking present last ((alike t).symm.comes through)
        (.refl store)
    rw [closing_none, List.append_nil] at looks
    cases looks.unique (.look asking₁.computed settles undergoes')
    have older := (simulates.present goes).1.trans newer.le
    refine ⟨_, store', other₂, settles', undergoes.append undergone,
      (same'.weaken older).trans same₂, ?_⟩
    rcases ends with ⟨rfl, rfl⟩ | ⟨output, next, carried', index, _, rfl, rfl, goes'⟩
    · exact .none rests
    · refine .some ⟨⟨inner.spine, index⟩, _, t, simulates.frame goes' fun id _ upto => ?_, newer, ?_,
        rests⟩
      · exact same'.spines id (Nat.lt_of_le_of_lt upto newer)
      · rw [Array.size_push, last]

end Behind

section Builds

inductive Made (R : Store ω ν → Node → Array ν → p.State → Prop) (store : Store ω ν) :
    Sequence ν → Option (ν × p.State) → Prop
  | some {id : Nat} {value : ν} {next : p.State} (goes : R store ⟨id, 0⟩ #[value] next) :
      Made R store (some ⟨value, id, 0⟩) (some (value, next))
  | none : Made R store none none

/-- A computation that makes a sequence that stands for a producer. -/
structure Builds (M : Meaning ν) (store : Store ω ν) (x : Lazy ω ν (Sequence ν))
    (p : Producer ω ν ν) (R : Store ω ν → Node → Array ν → p.State → Prop) : Prop where
  steady : x.Steady
  simulates : Simulates M store.spines.size p R
  comes {fuel : Nat} {q : Sequence ν} {store' : Store ω ν} :
    x fuel store = some (q, store') → ∃ effects r, Comes M p.step p.state effects r
  makes {effects : List (Effect ω)} {r : Option (ν × p.State)} : Comes M p.step p.state effects r →
    ∃ q store' N other, Settles (fun fuel => x fuel store) (q, store') ∧
      store.Leaves M store' N ∧ store'.Has q ∧
      store.Undergoes effects other ∧ store'.SameBelow store.spines.size other ∧ Made R store' q r

variable {x : Lazy ω ν (Sequence ν)}

theorem builds_share (ready : store.Ready M)
    (grounded : Grounded store.spines.size p.step store.size p.state) :
    Builds M store p.share p (Direct p store.spines.size) where
  steady := steady_share
  simulates := simulates_direct
  comes := comes_of_shareBefore ready (shareable_of_grounded grounded)
  makes := by
    intro effects r comes
    obtain ⟨store', N, settles, shared, grown⟩ :=
      share_comes ready (shareable_of_grounded grounded) comes
    obtain ⟨other, undergoes, same⟩ := grown.undergoes
    refine ⟨_, store', N, other, settles, shared.leaves, shared.has, undergoes, same, ?_⟩
    cases r with
    | none => exact .none
    | some found => exact .some ⟨rfl, rfl, grown.present⟩

theorem Builds.congr {p' : Producer ω ν ν} (builds : Builds M store x p R) (alike : p.Alike p') :
    Builds M store x p' fun store node elements t => R store node elements (alike.back t) where
  steady := builds.steady
  simulates := builds.simulates.congr alike
  comes result := by
    obtain ⟨effects, r, comes⟩ := builds.comes result
    exact ⟨effects, _, alike.comes_state comes⟩
  makes := by
    intro effects r comes
    obtain ⟨q, store', N, other, settles, leaves, has, undergoes, same, made⟩ :=
      builds.makes (alike.symm.comes_state comes)
    refine ⟨q, store', N, other, settles, leaves, has, undergoes, same, ?_⟩
    cases r with
    | none =>
      cases made with
      | none => exact .none
    | some found =>
      cases made with
      | some goes => exact .some goes

variable {g : Scanner ω ν ν} {A : Sequence ν → Producer ω ν ν} {N : Meaning ν} {q : Sequence ν}
  {r : Option (ν × p.State)}

theorem Simulates.rested_made (simulates : Simulates M bound p R) (ready : store.Ready N)
    (has : store.Has q) (made : Made R store q r) :
    ∃ id, Rested N R id store q r ∧ ∀ cell, q = some cell → id < store.spines.size := by
  cases made with
  | @some id value next goes =>
    have inside := (has _ rfl).1
    refine ⟨id, .some goes ?_, fun _ _ => inside⟩
    exact simulates.asking goes ready.fits (ready.idle.weaken inside)
  | none => exact ⟨0, .none, by rintro _ ⟨⟩⟩

/-- A scanner behind a sequence that stands for a producer stands for the producer with that scanner. -/
theorem builds_behind (builds : Builds M store x p R)
    (alike : ∀ t, (A t).Alike ((ofSequence t).through g))
    (grounded : ∀ {bound : Nat} {sizes : Nat → Nat} {t : Sequence ν}, t.Within bound sizes →
      Grounded bound (A t).step sizes (A t).state) :
    Builds M store (do
      let q ← x
      (A q).share) (p.through g) (Behind R alike) where
  steady := builds.steady.bind fun _ => steady_share
  simulates := simulates_behind builds.simulates alike
  comes := by
    intro fuel q store' result
    obtain ⟨q, store₁, came, shares⟩ := Lazy.bind_eq_some.mp result
    obtain ⟨effects, r, comes⟩ := builds.comes came
    obtain ⟨q', store₁', N, other, settles, leaves, has, -, -, made⟩ := builds.makes comes
    obtain ⟨rfl, rfl⟩ := Prod.mk.inj (builds.steady.unique came settles)
    obtain ⟨id, rested, -⟩ := builds.simulates.rested_made leaves.ready has made
    obtain ⟨_, _, comes'⟩ :=
      comes_of_shareBefore leaves.ready (shareable_of_grounded (grounded has)) shares
    obtain ⟨_, found, behind, reads, reacts, -⟩ :=
      comes_scanFilter.mp ((alike q).comes_state comes')
    obtain ⟨-, rfl⟩ := comes_reading_here.mp reads
    obtain ⟨behind', r', reacts'⟩ := builds.simulates.leads leaves.agree reacts rfl rested
    exact ⟨_, r', comes_scanFilter.mpr ⟨_, r, behind', comes, reacts', rfl⟩⟩
  makes := by
    intro effects r comes
    obtain ⟨first, found, behind, comes₁, reacts, rfl⟩ := comes_scanFilter.mp comes
    obtain ⟨q, store₁, N, other₁, settles, leaves, has, undergoes, same₁, made⟩ :=
      builds.makes comes₁
    obtain ⟨id, rested, older⟩ := builds.simulates.rested_made leaves.ready has made
    obtain ⟨behind', r', store₂, other₂, reacts', undergoes', undergone, same₂, ends⟩ :=
      builds.simulates.follows leaves.agree reacts rested same₁
    have through : Comes N ((ofSequence q).through g).step ((ofSequence q).through g).state
        ([] ++ behind') r' := comes_scanFilter.mpr
      ⟨[], _, behind', comes_reading_here.mpr ⟨rfl, rfl⟩, reacts', rfl⟩
    obtain ⟨store', N', shares, shared, grown⟩ := share_comes leaves.ready
      (shareable_of_grounded (grounded has)) ((alike q).symm.comes_state through)
    obtain ⟨other', looks, same'⟩ := grown.undergoes
    rw [List.nil_append] at looks
    cases looks.unique undergoes'
    refine ⟨_, store', N', other₂, Lazy.settles_bind settles shares, leaves.trans shared.leaves,
      shared.has, undergoes.append undergone, (same'.weaken leaves.spines).trans same₂, ?_⟩
    rcases ends with ⟨rfl, rfl⟩ | ⟨output, next, carried', index, _, rfl, rfl, goes⟩
    · exact .none
    · have inside : id < store₁.spines.size := by
        cases rested with
        | some => exact older _ rfl
        | none => cases reacts
      refine .some ⟨⟨id, index⟩, _, q, builds.simulates.frame goes fun id' _ upto => ?_, inside, rfl,
        grown.present⟩
      exact same'.spines id' (Nat.lt_of_le_of_lt upto inside)

end Builds

end Store

end DemandLex
