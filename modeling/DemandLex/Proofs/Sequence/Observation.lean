import DemandLex.Proofs.Sequence.Simulation

/-! Sequences that no use tells apart. Two computations that make sequences which stand for one producer
may lay them out over different spines, but whatever is done with the one can be done with the other,
shows the same, and leaves the same of all that was there before. -/

namespace DemandLex

variable {ω ν : Type}

/-- A use of the sequences at hand. The part behind so many elements of one of them is taken, and is at
hand from then on; or somebody else takes a note. -/
inductive Use (ω : Type) where
  | ahead (handle count : Nat)
  | note (entry : ω)

namespace Sequence

def use (handles : List (Sequence ν)) : Use ω → Lazy ω ν (List (Sequence ν))
  | .ahead handle count => do
    let front ← advance count (handles.getD handle none)
    pure (handles ++ [front])
  | .note entry => do
    Lazy.noted ⟨[entry], ()⟩
    pure handles

def useAll : List (Use ω) → List (Sequence ν) → Lazy ω ν (List (Sequence ν))
  | [], handles => pure handles
  | first :: later, handles => do
    let handles ← use handles first
    useAll later handles

end Sequence

namespace Lazy

def used (x : Lazy ω ν (Sequence ν)) (others : List (Sequence ν)) (uses : List (Use ω)) :
    Lazy ω ν (List (Sequence ν)) := do
  let first ← x
  Sequence.useAll uses (first :: others)

/-- Whatever use of the one sequence comes back, it comes back with the other one in its place, shows
the same elements, and leaves the same of what was there before. -/
def Covers (x y : Lazy ω ν (Sequence ν)) (store : Store ω ν) : Prop :=
  ∀ others uses, (∀ s ∈ others, store.Has s) → ∀ fuel handles left,
    y.used others uses fuel store = some (handles, left) → ∃ handles' right,
      Store.Settles (fun fuel => x.used others uses fuel store) (handles', right) ∧
      handles'.map Sequence.first? = handles.map Sequence.first? ∧
      left.SameBelow store.spines.size right

def Indistinguishable (x y : Lazy ω ν (Sequence ν)) (store : Store ω ν) : Prop :=
  x.Covers y store ∧ y.Covers x store

end Lazy

namespace Store

open Producer

variable {M : Meaning ν} {bound id id' : Nat} {base left left' right right' : Store ω ν}
  {p : Producer ω ν ν} {R R' : Store ω ν → Node → Array ν → p.State → Prop}
  {elements elements' : Array ν} {q q' t t' : Sequence ν} {fuel : Nat}

/-- A spine in each of two stores, with the same elements, where both go on from the same state of the
producer or both end; neither need be there if the producer gave no element. -/
inductive Twins (bound : Nat) (R R' : Store ω ν → Node → Array ν → p.State → Prop)
    (left right : Store ω ν) (id id' : Nat) : Array ν → Prop
  | going {index : Nat} {elements : Array ν} {s : p.State} (goes : R left ⟨id, index⟩ elements s)
      (goes' : R' right ⟨id', index⟩ elements s) : Twins bound R R' left right id id' elements
  | closed {elements : Array ν} (newer : bound ≤ id) (newer' : bound ≤ id')
      (ends : left.spines[id]? = some ⟨elements, .closed none⟩)
      (ends' : right.spines[id']? = some ⟨elements, .closed none⟩) :
      Twins bound R R' left right id id' elements
  | absent : Twins bound R R' left right id id' #[]

inductive Handles (bound id id' : Nat) (left : Store ω ν) (elements : Array ν) :
    Sequence ν → Sequence ν → Prop
  | older {s : Sequence ν} (within : s.Within bound left.size) :
      Handles bound id id' left elements s s
  | newer {index : Nat} {value : ν} (stored : elements[index]? = some value) :
      Handles bound id id' left elements (some ⟨value, id, index⟩) (some ⟨value, id', index⟩)

theorem Handles.first? (handles : Handles bound id id' left elements q q') :
    q.first? = q'.first? := by
  cases handles <;> rfl

structure Outlasts (left' : Store ω ν) (elements' : Array ν) (left : Store ω ν)
    (elements : Array ν) : Prop where
  sizes : left.size ≤ left'.size
  stored (index : Nat) (value : ν) : elements[index]? = some value → elements'[index]? = some value

theorem Outlasts.refl : left.Outlasts elements left elements := ⟨le_rfl, fun _ _ stored => stored⟩

theorem Outlasts.trans {last : Store ω ν} {elements'' : Array ν}
    (first : left'.Outlasts elements' left elements)
    (second : last.Outlasts elements'' left' elements') : last.Outlasts elements'' left elements :=
  ⟨first.sizes.trans second.sizes, fun index value stored =>
    second.stored index value (first.stored index value stored)⟩

theorem Handles.later (handles : Handles bound id id' left elements q q')
    (later : left'.Outlasts elements' left elements) :
    Handles bound id id' left' elements' q q' := by
  cases handles with
  | older within => exact .older (within.grow later.sizes)
  | newer stored => exact .newer (later.stored _ _ stored)

/-- Where the producer of twin spines comes to rest, the spines go on as twins or both end. -/
theorem twins_of_after {index : Nat} {r : Option (ν × p.State)} (last : elements.size = index + 1)
    (newer : bound ≤ id) (newer' : bound ≤ id') (after : After R ⟨id, index⟩ elements left t r)
    (after' : After R' ⟨id', index⟩ elements right t' r) :
    ∃ elements', Twins bound R R' left right id id' elements' ∧
      Handles bound id id' left elements' t t' ∧
      ∀ (i : Nat) (value : ν), elements[i]? = some value → elements'[i]? = some value := by
  cases after with
  | @some value next goes =>
    cases after' with
    | some goes' =>
      refine ⟨elements.push value, .going goes goes', .newer ?_, fun i value stored => ?_⟩
      · rw [← last, Array.getElem?_push_size]
      · have inside := (Array.getElem?_eq_some_iff.mp stored).1
        rw [Array.getElem?_push_lt inside, ← stored, Array.getElem?_eq_getElem inside]
  | none ends =>
    cases after' with
    | none ends' =>
      exact ⟨elements, .closed newer newer' ends ends', .older Sequence.within_none,
        fun _ _ stored => stored⟩

structure Twinned (M : Meaning ν) (base : Store ω ν)
    (R R' : Store ω ν → Node → Array ν → p.State → Prop) (id id' : Nat) (elements : Array ν)
    (left right : Store ω ν) : Prop where
  leaves : ∃ N, base.Leaves M left N
  leaves' : ∃ N, base.Leaves M right N
  same : left.SameBelow base.spines.size right
  twins : Twins base.spines.size R R' left right id id' elements

section Twinned
variable (simulates : Simulates M base.spines.size p R)
  (simulates' : Simulates M base.spines.size p R')
include simulates simulates'

theorem Twins.present (twins : Twins base.spines.size R R' left right id id' elements)
    {index : Nat} {value : ν} (stored : elements[index]? = some value) :
    (∃ frontier, left.spines[id]? = some ⟨elements, frontier⟩) ∧
      ∃ frontier, right.spines[id']? = some ⟨elements, frontier⟩ := by
  cases twins with
  | going goes goes' =>
    obtain ⟨-, -, source, tail, present⟩ := simulates.present goes
    obtain ⟨-, -, source', tail', present'⟩ := simulates'.present goes'
    exact ⟨⟨_, present⟩, _, present'⟩
  | closed _ _ ends ends' => exact ⟨⟨_, ends⟩, _, ends'⟩
  | absent => simp at stored

theorem Twins.frame (twins : Twins base.spines.size R R' left right id id' elements)
    (same : ∀ i, base.spines.size ≤ i → left'.spines[i]? = left.spines[i]?)
    (same' : ∀ i, base.spines.size ≤ i → right'.spines[i]? = right.spines[i]?) :
    Twins base.spines.size R R' left' right' id id' elements := by
  cases twins with
  | going goes goes' =>
    exact .going (simulates.frame goes fun i newer _ => same i newer)
      (simulates'.frame goes' fun i newer _ => same' i newer)
  | closed newer newer' ends ends' =>
    exact .closed newer newer' ((same _ newer).trans ends) ((same' _ newer').trans ends')
  | absent => exact .absent

theorem Twinned.has (twinned : Twinned M base R R' id id' elements left right)
    (handles : Handles base.spines.size id id' left elements q q') : left.Has q ∧ right.Has q' := by
  obtain ⟨⟨N, leaves⟩, ⟨N', leaves'⟩, same, twins⟩ := twinned
  cases handles with
  | older within =>
    refine ⟨within.weaken leaves.spines, fun cell found => ?_⟩
    obtain ⟨older, computed⟩ := within cell found
    exact ⟨older.trans_le leaves'.spines, (same.size older) ▸ computed⟩
  | @newer index value stored =>
    obtain ⟨⟨frontier, present⟩, frontier', present'⟩ := twins.present simulates simulates' stored
    have inside : index < elements.size := (Array.getElem?_eq_some_iff.mp stored).1
    constructor
    · rintro cell ⟨⟩
      exact ⟨(Array.getElem?_eq_some_iff.mp present).1, by rwa [size_eq present]⟩
    · rintro cell ⟨⟩
      exact ⟨(Array.getElem?_eq_some_iff.mp present').1, by rwa [size_eq present']⟩

theorem Twinned.rest_older {node : Node} (twinned : Twinned M base R R' id id' elements left right)
    (older : node.spine < base.spines.size) (computed : node.index < left.size node.spine)
    (result : rest fuel node left = some (t, left')) :
    ∃ right', Settles (fun fuel => rest fuel node right) (t, right') ∧
      Twinned M base R R' id id' elements left' right' ∧
      Handles base.spines.size id id' left' elements t t ∧
      left'.Outlasts elements left elements := by
  obtain ⟨⟨N, leaves⟩, ⟨N', leaves'⟩, same, twins⟩ := twinned
  have asking : Asking N left node :=
    leaves.ready.asking_of_lt (older.trans_le leaves.spines) computed
  have asking' : Asking N' right node :=
    leaves'.ready.asking_of_lt (older.trans_le leaves'.spines) (same.size older ▸ computed)
  obtain ⟨right', settles, same'⟩ :=
    same.rest_settles asking older (steady_rest.settles result)
  have found := found_of_rest asking result
  have found' := found_of_settles asking' settles
  obtain ⟨later, -⟩ := found.leaves leaves.ready (older.trans_le leaves.spines)
  obtain ⟨later', -⟩ := found'.leaves leaves'.ready (older.trans_le leaves'.spines)
  refine ⟨right', settles, ⟨⟨N, leaves.trans later⟩, ⟨N', leaves'.trans later'⟩, same', ?_⟩,
    .older (found.within.weaken older), later.sizes, fun _ _ stored => stored⟩
  exact twins.frame simulates simulates'
    (fun i newer => found.grows.same i (Nat.succ_le_of_lt (older.trans_le newer)))
    fun i newer => found'.grows.same i (Nat.succ_le_of_lt (older.trans_le newer))

theorem Twinned.rest_front {index : Nat}
    (twinned : Twinned M base R R' id id' elements left right) (last : elements.size = index + 1)
    (result : rest fuel ⟨id, index⟩ left = some (t, left')) :
    ∃ t' right' elements', Settles (fun fuel => rest fuel ⟨id', index⟩ right) (t', right') ∧
      Twinned M base R R' id id' elements' left' right' ∧
      Handles base.spines.size id id' left' elements' t t' ∧
      left'.Outlasts elements' left elements := by
  have came : Settles (fun fuel => rest fuel ⟨id, index⟩ left) (t, left') :=
    steady_rest.settles result
  obtain ⟨⟨N, leaves⟩, ⟨N', leaves'⟩, same, twins⟩ := twinned
  cases twins with
  | @going index' elements s goes goes' =>
    obtain ⟨newer, place, -⟩ := simulates.present goes
    obtain ⟨newer', -⟩ := simulates'.present goes'
    obtain rfl : index = index' := Nat.succ.inj (last.symm.trans place)
    have asking := simulates.asking_of_ready goes leaves.ready
    have asking' := simulates'.asking_of_ready goes' leaves'.ready
    have found := found_of_rest asking result
    obtain ⟨effects, r, comes⟩ := simulates.comes goes asking leaves.agree found.stands
    obtain ⟨t₁, left₁, other, settles, undergoes, same₁, after⟩ :=
      simulates.rests goes asking leaves.agree (.refl left) comes
    obtain ⟨t', right', other', settles', undergoes', same', after'⟩ :=
      simulates'.rests goes' asking' leaves'.agree same.symm comes
    cases came.unique settles
    cases undergoes.unique undergoes'
    have found' := found_of_settles asking' settles'
    obtain ⟨later, -⟩ := found.leaves leaves.ready asking.inside
    obtain ⟨later', -⟩ := found'.leaves leaves'.ready asking'.inside
    obtain ⟨elements', twins, handles, more⟩ := twins_of_after last newer newer' after after'
    exact ⟨t', right', elements', settles', ⟨⟨N, leaves.trans later⟩,
      ⟨N', leaves'.trans later'⟩, same₁.trans same'.symm, twins⟩, handles, later.sizes, more⟩
  | closed newer newer' ends ends' =>
    have beyond : elements[index + 1]? = none := Array.getElem?_eq_none last.le
    cases came.unique (Stored.closed ends beyond).settles
    exact ⟨none, right, elements, (Stored.closed ends' beyond).settles, ⟨⟨N, leaves⟩, ⟨N', leaves'⟩, same, .closed newer newer' ends ends'⟩,
      .older Sequence.within_none, .refl⟩
  | absent => simp at last

/-- Looks behind twin handles find twin handles. -/
theorem Twinned.rest (twinned : Twinned M base R R' id id' elements left right)
    (handles : Handles base.spines.size id id' left elements q q')
    (result : Sequence.rest q fuel left = some (t, left')) :
    ∃ t' right' elements', Settles (fun fuel => Sequence.rest q' fuel right) (t', right') ∧
      Twinned M base R R' id id' elements' left' right' ∧
      Handles base.spines.size id id' left' elements' t t' ∧
      left'.Outlasts elements' left elements := by
  cases handles with
  | older within =>
    cases q with
    | none =>
      cases result
      exact ⟨none, right, elements, ⟨0, fun _ _ => rfl⟩, twinned, .older Sequence.within_none, .refl⟩
    | some cell =>
      obtain ⟨older, computed⟩ := within cell rfl
      obtain ⟨right', settles, twinned', handles, later⟩ :=
        twinned.rest_older simulates simulates' older computed result
      exact ⟨t, right', elements, settles, twinned', handles, later⟩
  | @newer index value stored =>
    have inside := (Array.getElem?_eq_some_iff.mp stored).1
    cases behind : elements[index + 1]? with
    | some next =>
      obtain ⟨⟨frontier, present⟩, frontier', present'⟩ :=
        twinned.twins.present simulates simulates' stored
      cases Lazy.Steady.unique Sequence.steady_rest result (Stored.element present behind).settles
      exact ⟨_, right, elements, (Stored.element present' behind).settles, twinned, .newer behind,
        .refl⟩
    | none =>
      have last : elements.size = index + 1 := by
        have beyond := Array.getElem?_eq_none_iff.mp behind
        omega
      exact twinned.rest_front simulates simulates' last result

theorem Twinned.advance {count : Nat} (twinned : Twinned M base R R' id id' elements left right)
    (handles : Handles base.spines.size id id' left elements q q')
    (result : Sequence.advance count q fuel left = some (t, left')) :
    ∃ t' right' elements',
      Settles (fun fuel => Sequence.advance count q' fuel right) (t', right') ∧
      Twinned M base R R' id id' elements' left' right' ∧
      Handles base.spines.size id id' left' elements' t t' ∧
      left'.Outlasts elements' left elements := by
  induction count generalizing left right elements q q' with
  | zero =>
    cases result
    exact ⟨q', right, elements, ⟨0, fun _ _ => rfl⟩, twinned, handles, .refl⟩
  | succ count ih =>
    obtain ⟨q₁, left₁, rests, advances⟩ := Lazy.bind_eq_some.mp result
    obtain ⟨q₁', right₁, elements₁, settles, twinned₁, handles₁, later₁⟩ :=
      twinned.rest simulates simulates' handles rests
    obtain ⟨t', right', elements', settles', twinned', handles', later'⟩ :=
      ih twinned₁ handles₁ advances
    exact ⟨t', right', elements', Lazy.settles_bind settles settles', twinned', handles',
      later₁.trans later'⟩

end Twinned

section Uses
variable {ours theirs ours' : List (Sequence ν)}

theorem handles_getD (handles : List.Forall₂ (Handles bound id id' left elements) ours theirs)
    (place : Nat) :
    Handles bound id id' left elements (ours.getD place none) (theirs.getD place none) := by
  induction handles generalizing place with
  | nil => exact .older Sequence.within_none
  | cons first later ih =>
    cases place with
    | zero => exact first
    | succ place => exact ih place

theorem first?_of_handles
    (handles : List.Forall₂ (Handles bound id id' left elements) ours theirs) :
    theirs.map Sequence.first? = ours.map Sequence.first? := by
  induction handles with
  | nil => rfl
  | cons first later ih => rw [List.map_cons, List.map_cons, ih, first.first?]

theorem Twinned.use {act : Use ω} (simulates : Simulates M base.spines.size p R)
    (simulates' : Simulates M base.spines.size p R')
    (twinned : Twinned M base R R' id id' elements left right)
    (handles : List.Forall₂ (Handles base.spines.size id id' left elements) ours theirs)
    (result : Sequence.use ours act fuel left = some (ours', left')) :
    ∃ theirs' right' elements',
      Settles (fun fuel => Sequence.use theirs act fuel right) (theirs', right') ∧
      Twinned M base R R' id id' elements' left' right' ∧
      List.Forall₂ (Handles base.spines.size id id' left' elements') ours' theirs' := by
  cases act with
  | ahead place count =>
    obtain ⟨front, left₁, advances, given⟩ := Lazy.bind_eq_some.mp result
    cases given
    obtain ⟨front', right', elements', settles, twinned', here, later⟩ :=
      twinned.advance simulates simulates' (handles_getD handles place) advances
    have older := handles.imp fun s s' (stood : Handles _ _ _ _ _ s s') => stood.later later
    exact ⟨_, right', elements', Lazy.settles_bind settles ⟨0, fun _ _ => rfl⟩, twinned',
      List.rel_append older (.cons here .nil)⟩
  | note entry =>
    cases result
    obtain ⟨⟨N, leaves⟩, ⟨N', leaves'⟩, same, twins⟩ := twinned
    have later : (left.log [entry]).Outlasts elements left elements :=
      ⟨fun _ => le_rfl, fun _ _ stored => stored⟩
    refine ⟨theirs, right.log [entry], elements, ⟨0, fun _ _ => rfl⟩, ⟨⟨N, ?_⟩, ⟨N', ?_⟩, same.log _,
      twins.frame simulates simulates' (fun _ _ => rfl) fun _ _ => rfl⟩,
      handles.imp fun s s' (stood : Handles _ _ _ _ _ s s') => stood.later later⟩
    · exact leaves.trans (Lazy.leaves_log _ leaves.ready)
    · exact leaves'.trans (Lazy.leaves_log _ leaves'.ready)

theorem Twinned.useAll {uses : List (Use ω)} (simulates : Simulates M base.spines.size p R)
    (simulates' : Simulates M base.spines.size p R')
    (twinned : Twinned M base R R' id id' elements left right)
    (handles : List.Forall₂ (Handles base.spines.size id id' left elements) ours theirs)
    (result : Sequence.useAll uses ours fuel left = some (ours', left')) :
    ∃ theirs' right' elements',
      Settles (fun fuel => Sequence.useAll uses theirs fuel right) (theirs', right') ∧
      Twinned M base R R' id id' elements' left' right' ∧
      List.Forall₂ (Handles base.spines.size id id' left' elements') ours' theirs' := by
  induction uses generalizing left right elements ours theirs with
  | nil =>
    cases result
    exact ⟨theirs, right, elements, ⟨0, fun _ _ => rfl⟩, twinned, handles⟩
  | cons act later ih =>
    obtain ⟨ours₁, left₁, first, behind⟩ := Lazy.bind_eq_some.mp result
    obtain ⟨theirs₁, right₁, elements₁, settles, twinned₁, handles₁⟩ :=
      twinned.use simulates simulates' handles first
    obtain ⟨theirs', right', elements', settles', found⟩ := ih twinned₁ handles₁ behind
    exact ⟨theirs', right', elements', Lazy.settles_bind settles settles', found⟩

end Uses

section Builds
variable {x y : Lazy ω ν (Sequence ν)} {store : Store ω ν}

theorem twinned_of_makes {r : Option (ν × p.State)} {N N' : Meaning ν} {other : Store ω ν}
    (leaves : store.Leaves M left N) (leaves' : store.Leaves M right N')
    (same : left.SameBelow store.spines.size other)
    (same' : right.SameBelow store.spines.size other) (made : Made R left q r)
    (made' : Made R' right q' r) :
    ∃ id id' elements, Twinned M store R R' id id' elements left right ∧
      Handles store.spines.size id id' left elements q q' := by
  cases made with
  | @some id value next goes =>
    cases made' with
    | some goes' =>
      exact ⟨_, _, #[value], ⟨⟨N, leaves⟩, ⟨N', leaves'⟩, same.trans same'.symm, .going goes goes'⟩,
        .newer rfl⟩
  | none =>
    cases made' with
    | none =>
      exact ⟨0, 0, #[], ⟨⟨N, leaves⟩, ⟨N', leaves'⟩, same.trans same'.symm, .absent⟩,
        .older Sequence.within_none⟩

theorem covers_of_builds (builds : Builds M store x p R) (builds' : Builds M store y p R') :
    y.Covers x store := by
  intro others uses among fuel handles left result
  obtain ⟨q, left₁, came, used⟩ := Lazy.bind_eq_some.mp result
  obtain ⟨effects, r, comes⟩ := builds.comes came
  obtain ⟨q₁, left₂, N, other, settles, leaves, has, undergoes, same, made⟩ := builds.makes comes
  obtain ⟨q', right₁, N', other', settles', leaves', has', undergoes', same', made'⟩ :=
    builds'.makes comes
  cases builds.steady.unique came settles
  cases undergoes.unique undergoes'
  obtain ⟨id, id', elements, twinned, here⟩ :=
    twinned_of_makes leaves leaves' same same' made made'
  have twins : List.Forall₂ (Handles store.spines.size id id' left₁ elements) (q :: others)
      (q' :: others) := by
    refine .cons here (List.forall₂_same.mpr fun s inside => .older ?_)
    exact (among s inside).grow leaves.sizes
  obtain ⟨theirs, right, elements', uses', twinned', shown⟩ :=
    twinned.useAll builds.simulates builds'.simulates twins used
  exact ⟨theirs, right, Lazy.settles_bind settles' uses', first?_of_handles shown, twinned'.same⟩

/-- Sequences that stand for one producer are not told apart by any use. -/
theorem indistinguishable_of_builds (builds : Builds M store x p R)
    (builds' : Builds M store y p R') : x.Indistinguishable y store :=
  ⟨covers_of_builds builds' builds, covers_of_builds builds builds'⟩

end Builds

end Store

end DemandLex
