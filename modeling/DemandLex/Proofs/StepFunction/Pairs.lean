import DemandLex.Program.StepFunctions
import DemandLex.Proofs.StepFunction.WellFormed
import Mathlib.Order.Bounds.Basic

/-! Pairs of an edge and a value make a step function without repeated values, unless an edge does not
come strictly after the one before it; the first such pair is the one that is reported. -/

namespace DemandLex.StepFunction

section Pairs
variable {ω E T : Type} {compare : E → E → Ordering} {equal : T → T → Noted ω Bool}
  {first kept : T} {last next : E × T} {pairs later : List (E × T)} {index i : Nat}
  {e : UnorderedEdges}

/-- The edge of the pair with this index does not come strictly after that of the pair before it. -/
def Breaks (compare : E → E → Ordering) (pairs : List (E × T)) : Nat → Prop
  | 0 => False
  | i + 1 => ∃ last next, pairs[i]? = some last ∧ pairs[i + 1]? = some next ∧
      compare last.1 next.1 ≠ .lt

theorem breaks_one : Breaks compare (last :: next :: later) 1 ↔ compare last.1 next.1 ≠ .lt := by
  simp [Breaks]

theorem breaks_cons (ordered : compare last.1 next.1 = .lt) :
    Breaks compare (last :: next :: later) (i + 1) ↔ Breaks compare (next :: later) i := by
  cases i with
  | zero => exact iff_of_false (mt breaks_one.mp (not_not.mpr ordered)) id
  | succ i => exact Iff.rfl

theorem not_breaks_of_length (short : pairs.length ≤ 1) : ¬Breaks compare pairs i := by
  cases i with
  | zero => exact id
  | succ i =>
    rintro ⟨last, next, -, found, -⟩
    rw [List.getElem?_eq_none (by omega)] at found
    cases found

theorem not_breaks_of_increasing (increasing : Increasing compare (pairs.map ofPair)) :
    ¬Breaks compare pairs i := by
  cases i with
  | zero => exact id
  | succ i =>
    rintro ⟨last, next, before, found, unordered⟩
    obtain ⟨bound, rfl⟩ := List.getElem?_eq_some_iff.mp before
    obtain ⟨bound', rfl⟩ := List.getElem?_eq_some_iff.mp found
    have ordered := List.isChain_iff_getElem.mp increasing i (by simpa using bound')
    rw [List.getElem_map, List.getElem_map] at ordered
    exact unordered ordered

theorem isLeast_breaks_one (unordered : compare last.1 next.1 ≠ .lt) :
    IsLeast {i | Breaks compare (last :: next :: later) i} 1 := by
  refine ⟨breaks_one.mpr unordered, ?_⟩
  intro i breaks
  cases i with
  | zero => exact breaks.elim
  | succ i => exact Nat.le_add_left 1 i

theorem isLeast_breaks_cons (ordered : compare last.1 next.1 = .lt) :
    IsLeast {i | Breaks compare (last :: next :: later) i} (i + 1) ↔
      IsLeast {i | Breaks compare (next :: later) i} i := by
  constructor
  · intro least
    refine ⟨(breaks_cons ordered).mp least.1, ?_⟩
    intro j breaks
    exact Nat.le_of_succ_le_succ (least.2 ((breaks_cons ordered).mpr breaks))
  · intro least
    refine ⟨(breaks_cons ordered).mpr least.1, ?_⟩
    intro j breaks
    cases j with
    | zero => exact breaks.elim
    | succ j => exact Nat.succ_le_succ (least.2 ((breaks_cons ordered).mp breaks))

theorem exists_isLeast_breaks_cons (ordered : compare last.1 next.1 = .lt) :
    (∃ i, e = ⟨index + 1 + i⟩ ∧ IsLeast {i | Breaks compare (next :: later) i} i) ↔
      ∃ i, e = ⟨index + i⟩ ∧ IsLeast {i | Breaks compare (last :: next :: later) i} i := by
  have shift (i : Nat) : index + 1 + i = index + (i + 1) := by omega
  constructor
  · rintro ⟨i, rfl, least⟩
    exact ⟨i + 1, by rw [shift], (isLeast_breaks_cons ordered).mpr least⟩
  · rintro ⟨i, rfl, least⟩
    cases i with
    | zero => exact least.1.elim
    | succ i => exact ⟨i, by rw [shift], (isLeast_breaks_cons ordered).mp least⟩

private theorem map_eq_error {ε α β : Type} {x : Except ε α} {f : α → β} {e : ε} :
    x.map f = .error e ↔ x = .error e := by
  cases x with
  | error => simp [Except.map]
  | ok => simp [Except.map]

/-- Whether a pair is kept or left out, the next one is checked against its edge. -/
theorem keepPairs_eq_error :
    (keepPairs compare equal (index + 1) (some last.1) kept pairs).value = .error e ↔
      ∃ i, e = ⟨index + i⟩ ∧ IsLeast {i | Breaks compare (last :: pairs) i} i := by
  induction pairs generalizing index last kept with
  | nil =>
    constructor
    · intro failed
      cases failed
    · rintro ⟨i, -, least⟩
      exact absurd least.1 (not_breaks_of_length le_rfl)
  | cons next later ih =>
    rw [keepPairs_cons]
    by_cases ordered : compare last.1 next.1 = .lt
    · rw [if_pos (by simpa using ordered), ← exists_isLeast_breaks_cons ordered]
      split
      · exact ih
      · exact map_eq_error.trans ih
    · rw [if_neg (by simpa using ordered), Except.error.injEq, eq_comm]
      constructor
      · rintro rfl
        exact ⟨1, rfl, isLeast_breaks_one ordered⟩
      · rintro ⟨i, rfl, least⟩
        rw [least.unique (isLeast_breaks_one ordered)]

theorem ofPairs_eq_error :
    (ofPairs compare equal first pairs).value = .error ⟨i⟩ ↔
      IsLeast {i | Breaks compare pairs i} i := by
  rw [ofPairs, Noted.value_bind]
  refine map_eq_error.trans ?_
  cases pairs with
  | nil =>
    constructor
    · intro failed
      cases failed
    · intro least
      exact absurd least.1 (not_breaks_of_length (Nat.zero_le 1))
  | cons pair later =>
    have checked (kept : T) : (keepPairs compare equal 1 (some pair.1) kept later).value = .error ⟨i⟩ ↔
        IsLeast {i | Breaks compare (pair :: later) i} i := by
      refine keepPairs_eq_error.trans ?_
      simp
    rw [keepPairs_cons, Option.all_none, if_pos rfl]
    split
    · exact checked first
    · exact map_eq_error.trans (checked _)

theorem exists_ofPairs_eq_ok (ordered : ∀ i, ¬Breaks compare pairs i) :
    ∃ f, (ofPairs compare equal first pairs).value = .ok f := by
  cases made : (ofPairs compare equal first pairs).value with
  | ok f => exact ⟨f, rfl⟩
  | error e => exact absurd (ofPairs_eq_error.mp made).1 (ordered e.index)

theorem map_id {equal : T → T → Bool} {bs : List (Breakpoint E T)} :
    StepFunction.map equal id ⟨first, bs⟩ = ⟨first, minimise equal first bs⟩ := by
  simp [map]

def toPair (b : Breakpoint E T) : E × T := (b.edge, b.value)

theorem map_toPair (bs : List (Breakpoint E T)) : (bs.map toPair).map ofPair = bs := by
  rw [List.map_map]
  exact List.map_id bs

theorem ofPairs_breakpoints [Std.TransCmp compare] {f : StepFunction E T}
    (formed : WellFormed compare (silent equal) f) :
    (ofPairs compare equal f.first (f.breakpoints.map toPair)).value = .ok f := by
  have increasing : Increasing compare ((f.breakpoints.map toPair).map ofPair) := by
    rw [map_toPair]
    exact formed.increasing
  have accepted : ∃ g, (ofPairs compare equal f.first (f.breakpoints.map toPair)).value = .ok g :=
    exists_ofPairs_eq_ok fun i => not_breaks_of_increasing increasing
  obtain ⟨g, made⟩ := accepted
  obtain ⟨-, same⟩ := ofPairs_eq_ok made
  rw [map_toPair, minimise_of_minimal formed.minimal] at same
  rw [made, same]

/-- What is kept of pairs in order has at every key the value that the pairs as they are give, or one
that was found equal to it. -/
theorem get_ofPairs [Std.TransCmp compare] {f : StepFunction E T} (key : E)
    (made : (ofPairs compare equal first pairs).value = .ok f) :
    let raw : StepFunction E T := ⟨first, pairs.map ofPair⟩
    f.get compare key = raw.get compare key ∨
      silent equal (f.get compare key) (raw.get compare key) = true := by
  obtain ⟨increasing, rfl⟩ := ofPairs_eq_ok made
  exact valueFrom_minimise key increasing (Or.inl rfl)

theorem eq_map_of_ofPairs {f : StepFunction E T}
    (made : (ofPairs compare equal first pairs).value = .ok f) :
    f = StepFunction.map (silent equal) id ⟨first, pairs.map ofPair⟩ := by
  obtain ⟨-, rfl⟩ := ofPairs_eq_ok made
  exact map_id.symm

/-- Makes a step function of pairs and, where this gives one, a second one by mapping the pairs as they
are with the identity; lists both, and looks a key up in the first and in the pairs as they are. -/
def readPairs (compare : E → E → Ordering) (equal : T → T → Noted ω Bool) (first : T)
    (pairs : List (E × T)) (key : E)
    (run : Lazy ω (Breakpoint E T) (Except UnorderedEdges (StepStream E T))) :
    Lazy ω (Breakpoint E T)
      (Except UnorderedEdges ((StepFunction E T × StepFunction E T) × (T × T))) := do
  match ← run with
  | .error e => pure (.error e)
  | .ok s =>
    let raw ← StepStream.ofStepFunction ⟨first, pairs.map ofPair⟩
    let mapped ← raw.map equal pure
    let listed ← s.toStepFunction
    let normal ← mapped.toStepFunction
    let value ← s.get compare key
    let given ← raw.get compare key
    pure (.ok ((listed, normal), (value, given)))

/-- What `readPairs` comes back with: the reason why there is no step function, or one that is listed
like the second, without repeated values, and that has the value given or one equal to it. -/
def PairsRead (compare : E → E → Ordering) (equal : T → T → Noted ω Bool) (pairs : List (E × T)) :
    Except UnorderedEdges ((StepFunction E T × StepFunction E T) × (T × T)) → Prop
  | .error e => IsLeast {i | Breaks compare pairs i} e.index
  | .ok ((listed, normal), (value, given)) =>
    (∀ i, ¬Breaks compare pairs i) ∧ listed = normal ∧ WellFormed compare (silent equal) listed ∧
      (value = given ∨ silent equal value given = true)

section Run
variable {store : Store ω (Breakpoint E T)} {M : Meaning (Breakpoint E T)}
  {run : Lazy ω (Breakpoint E T) (Except UnorderedEdges (StepStream E T))}
  {board : Program.Board E T}

theorem returns_ofPairs (ready : store.Ready M)
    (made : board.make (.ofPairs ⟨compare, equal⟩ first pairs) = .ok run) :
    run.Returns store M fun result store' M' =>
      (∃ e, result = .error e ∧ (ofPairs compare equal first pairs).value = .error e) ∨
        ∃ s f, result = .ok s ∧ (ofPairs compare equal first pairs).value = .ok f ∧
          s.Shows f store' M' := by
  cases made
  apply Lazy.returns_noted ready
  have logged := Lazy.leaves_log (ofPairs compare equal first pairs).notes ready
  cases checked : (ofPairs compare equal first pairs).value with
  | error e => exact Lazy.returns_pure logged.ready (.inl ⟨e, rfl, rfl⟩)
  | ok f =>
    apply (StepStream.returns_ofStepFunction logged.ready).map.mono
    intro result store' M' leaves found
    obtain ⟨s, rfl, shows⟩ := found
    exact .inr ⟨s, f, rfl, rfl, shows⟩

theorem returns_readPairs [Std.TransCmp compare] (key : E) (ready : store.Ready M)
    (made : board.make (.ofPairs ⟨compare, equal⟩ first pairs) = .ok run) :
    (readPairs compare equal first pairs key run).Returns store M fun result _ _ =>
      PairsRead compare equal pairs result := by
  apply (returns_ofPairs ready made).bind
  intro result store₁ M₁ leaves₁ came
  rcases came with ⟨e, rfl, failed⟩ | ⟨s, f, rfl, checked, shows₁⟩
  · exact Lazy.returns_pure leaves₁.ready (ofPairs_eq_error.mp failed)
  apply (StepStream.returns_ofStepFunction leaves₁.ready).bind
  intro raw store₂ M₂ leaves₂ raw₂
  have shows₂ := shows₁.later leaves₁.ready leaves₂
  apply (StepStream.returns_map leaves₂.ready raw₂).bind
  intro mapped store₃ M₃ leaves₃ mapped₃
  have shows₃ := shows₂.later leaves₂.ready leaves₃
  have raw₃ := raw₂.later leaves₂.ready leaves₃
  apply (StepStream.returns_toStepFunction leaves₃.ready shows₃).bind
  rintro listed store₄ M₄ leaves₄ rfl
  have shows₄ := shows₃.later leaves₃.ready leaves₄
  have raw₄ := raw₃.later leaves₃.ready leaves₄
  apply (StepStream.returns_toStepFunction leaves₄.ready (mapped₃.later leaves₃.ready leaves₄)).bind
  rintro normal store₅ M₅ leaves₅ rfl
  apply (StepStream.returns_get leaves₅.ready (shows₄.later leaves₄.ready leaves₅)).bind
  rintro value store₆ M₆ leaves₆ rfl
  have raw₆ := (raw₄.later leaves₄.ready leaves₅).later leaves₅.ready leaves₆
  apply (StepStream.returns_get leaves₆.ready raw₆).bind
  rintro given store₇ M₇ leaves₇ rfl
  refine Lazy.returns_pure leaves₇.ready ⟨?_, eq_map_of_ofPairs checked, wellFormed_ofPairs checked,
    get_ofPairs key checked⟩
  intro i
  exact not_breaks_of_increasing (ofPairs_eq_ok checked).1

end Run

end Pairs

/-- Pairs are refused where an edge does not come strictly after the one before it, whether that one
was kept or left out, and the error names the first such place. All others give the step function that
mapping them with the identity gives, and breakpoints that repeat no value are given back as they are.
So it is for the step function made in a store, and for one mapped there while it is read. -/
theorem pairs_normalise {E : Type} (compare : E → E → Ordering) [Std.TransCmp compare] {ω T : Type}
    (equal : T → T → Noted ω Bool) :
    (∀ (first : T) (pairs : List (E × T)),
      let raw : StepFunction E T := ⟨first, pairs.map ofPair⟩
      (∀ i, (ofPairs compare equal first pairs).value = .error ⟨i⟩ ↔
        IsLeast {i | Breaks compare pairs i} i) ∧
      ((∀ i, ¬Breaks compare pairs i) →
        ∃ f, (ofPairs compare equal first pairs).value = .ok f ∧ f.first = first ∧
          f.breakpoints = (raw.map (silent equal) id).breakpoints ∧
          Minimal (silent equal) f.first f.breakpoints ∧
          ∀ key, f.get compare key = raw.get compare key ∨
            silent equal (f.get compare key) (raw.get compare key) = true)) ∧
    (∀ f : StepFunction E T, WellFormed compare (silent equal) f →
      (ofPairs compare equal f.first (f.breakpoints.map toPair)).value = .ok f) ∧
    ∀ (first : T) (pairs : List (E × T)) (key : E) (board : Program.Board E T)
      (run : Lazy ω (Breakpoint E T) (Except UnorderedEdges (StepStream E T)))
      (store : Store ω (Breakpoint E T)) (M : Meaning (Breakpoint E T)), store.Ready M →
      board.make (.ofPairs ⟨compare, equal⟩ first pairs) = .ok run →
      (readPairs compare equal first pairs key run).Returns store M fun result _ _ =>
        PairsRead compare equal pairs result := by
  refine ⟨?_, fun f formed => ofPairs_breakpoints formed,
    fun first pairs key board run store M ready made => returns_readPairs key ready made⟩
  intro first pairs raw
  refine ⟨fun i => ofPairs_eq_error, ?_⟩
  intro ordered
  have accepted : ∃ f, (ofPairs compare equal first pairs).value = .ok f :=
    exists_ofPairs_eq_ok ordered
  obtain ⟨f, made⟩ := accepted
  have same := eq_map_of_ofPairs made
  exact ⟨f, made, by rw [same]; rfl, by rw [same], (wellFormed_ofPairs made).minimal,
    fun key => get_ofPairs key made⟩

/-- Values next to each other are taken as equal: the first pair that is refused follows one that was
left out, and the last value left out is far from the first. -/
theorem pairs_normalise_near :
    let near (x y : Nat) : Noted String Bool := pure (x ≤ y + 1 && y ≤ x + 1)
    let refused : List (Nat × Nat) := [(5, 1), (5, 7), (3, 2)]
    let pairs : List (Nat × Nat) := [(1, 1), (4, 2), (9, 3)]
    let f : StepFunction Nat Nat := ⟨0, [⟨4, 2⟩]⟩
    IsLeast {i | Breaks compare refused i} 1 ∧
    (∃ g, (ofPairs compare near 0 pairs).value = .ok g ∧
      (g.get compare 9 = 3 ∨ silent near (g.get compare 9) 3 = true)) ∧
    (ofPairs compare near f.first (f.breakpoints.map toPair)).value = .ok f ∧
    ∃ run, (Program.Board.empty : Program.Board Nat Nat).make (.ofPairs ⟨compare, near⟩ 0 pairs) =
        .ok run ∧
      (readPairs compare near 0 pairs 9 run).Returns .empty (fun _ => none) fun result _ _ =>
        PairsRead compare near pairs result := by
  intro near refused pairs f
  obtain ⟨checks, givesBack, streamed⟩ := pairs_normalise (E := Nat) compare near
  have ordered (i : Nat) : ¬Breaks compare pairs i :=
    not_breaks_of_increasing (by decide)
  refine ⟨((checks 0 refused).1 1).mp rfl, ?_, ?_, ?_⟩
  · obtain ⟨g, made, -, -, -, close⟩ := (checks 0 pairs).2 ordered
    exact ⟨g, made, close 9⟩
  · exact givesBack f ⟨by decide, by decide⟩
  · exact ⟨_, rfl, streamed 0 pairs 9 .empty _ .empty (fun _ => none) Store.ready_empty rfl⟩

end DemandLex.StepFunction
