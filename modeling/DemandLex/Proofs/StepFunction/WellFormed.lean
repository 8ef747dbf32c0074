import DemandLex.Proofs.StepFunction.Stream
import DemandLex.StepFunction.Pairs

/-! Every way of making a step function gives one with increasing edges and without a value that
repeats the one in force. -/

namespace DemandLex.StepFunction

section WellFormed
variable {ω ν E A B R T : Type} {compare : E → E → Ordering}

structure WellFormed (compare : E → E → Ordering) (equal : T → T → Bool) (f : StepFunction E T) :
    Prop where
  increasing : Increasing compare f.breakpoints
  minimal : Minimal equal f.first f.breakpoints

/-- A beginning of a merge: its edges increase, none of its values repeats the one in force, and
every edge comes from a beginning of one of the two sides. -/
structure Combines (compare : E → E → Ordering) (equal : R → R → Bool) (first : R)
    (left : List (Breakpoint E A) → Prop) (right : List (Breakpoint E B) → Prop)
    (zs : List (Breakpoint E R)) : Prop where
  increasing : Increasing compare zs
  minimal : Minimal equal first zs
  edges : ∀ z ∈ zs, (∃ xs, left xs ∧ ∃ x ∈ xs, z.edge = x.edge) ∨
    ∃ ys, right ys ∧ ∃ y ∈ ys, z.edge = y.edge

theorem combines_minimise [Std.TransCmp compare] {equal : R → R → Bool} {reduce : A → B → R}
    {first : R} {a : A} {b : B} {left : List (Breakpoint E A) → Prop}
    {right : List (Breakpoint E B) → Prop} {xs : List (Breakpoint E A)} {ys : List (Breakpoint E B)}
    (fromLeft : left xs) (fromRight : right ys) (leftIncreasing : ∀ xs, left xs → Increasing compare xs)
    (rightIncreasing : ∀ ys, right ys → Increasing compare ys) :
    Combines compare equal first left right
      (minimise equal first (overlay compare reduce a b xs ys)) where
  increasing := increasing_minimise
    (increasing_overlay (leftIncreasing xs fromLeft) (rightIncreasing ys fromRight))
  minimal := minimal_minimise
  edges z member := by
    rcases edge_mem_overlay (minimise_sublist.subset member) with found | found
    · exact Or.inl ⟨xs, fromLeft, found⟩
    · exact Or.inr ⟨ys, fromRight, found⟩

theorem wellFormed_constant {equal : T → T → Bool} {value : T} :
    WellFormed compare equal (constant value) := ⟨increasing_nil, trivial⟩

theorem wellFormed_merge [Std.TransCmp compare] {equal : R → R → Bool} {reduce : A → B → R}
    {f : StepFunction E A} {g : StepFunction E B} (left : Increasing compare f.breakpoints)
    (right : Increasing compare g.breakpoints) :
    WellFormed compare equal (f.merge ⟨compare, equal⟩ reduce g) :=
  ⟨increasing_minimise (increasing_overlay left right), minimal_minimise⟩

theorem wellFormed_map [Std.TransCmp compare] {equal : R → R → Bool} {change : T → R}
    {f : StepFunction E T} (increasing : Increasing compare f.breakpoints) :
    WellFormed compare equal (f.map equal change) :=
  ⟨increasing_minimise (increasing_map increasing), minimal_minimise⟩

theorem wellFormed_add [Std.TransCmp compare] {equal : T → T → Bool} {interval : Interval E T}
    {f : StepFunction E T} (nonempty : compare interval.min interval.max = .lt)
    (increasing : Increasing compare f.breakpoints) :
    WellFormed compare equal (f.add ⟨compare, equal⟩ interval) := by
  rw [add_nonempty nonempty]
  exact wellFormed_merge increasing (increasing_patch nonempty)

theorem increasing_add [Std.TransCmp compare] {equal : T → T → Bool} {interval : Interval E T}
    {f : StepFunction E T} (increasing : Increasing compare f.breakpoints) :
    Increasing compare (f.add ⟨compare, equal⟩ interval).breakpoints := by
  by_cases nonempty : compare interval.min interval.max = .lt
  · exact (wellFormed_add nonempty increasing).increasing
  · rw [add_empty nonempty]
    exact increasing

theorem WellFormed.add [Std.TransCmp compare] {equal : T → T → Bool} {interval : Interval E T}
    {f : StepFunction E T} (formed : WellFormed compare equal f) :
    WellFormed compare equal (f.add ⟨compare, equal⟩ interval) := by
  by_cases nonempty : compare interval.min interval.max = .lt
  · exact wellFormed_add nonempty formed.increasing
  · rw [add_empty nonempty]
    exact formed

section Pairs
variable {equal : T → T → Noted ω Bool} {index : Nat} {before : Option E} {kept first : T}
  {pairs : List (E × T)}

private theorem eq_ok_of_map {ε α β : Type} {x : Except ε α} {f : α → β} {result : β}
    (mapped : x.map f = .ok result) : ∃ value, x = .ok value ∧ f value = result := by
  cases x with
  | error => cases mapped
  | ok value => exact ⟨value, rfl, Except.ok.inj mapped⟩

theorem keepPairs_cons {edge : E} {value : T} :
    (keepPairs compare equal index before kept ((edge, value) :: pairs)).value =
      if before.all fun last => compare last edge == .lt then
        if silent equal kept value then
          (keepPairs compare equal (index + 1) (some edge) kept pairs).value
        else (keepPairs compare equal (index + 1) (some edge) value pairs).value.map
          (⟨edge, value⟩ :: ·)
      else .error ⟨index⟩ := by
  rw [keepPairs]
  split
  · rw [Noted.value_bind]
    show Noted.value (if silent equal kept value then _ else _) = _
    split <;> rfl
  · rfl

def ofPair (pair : E × T) : Breakpoint E T := ⟨pair.1, pair.2⟩

private theorem increasing_ofPair_cons {pair : E × T}
    (behind : ∀ next ∈ pairs.head?, compare pair.1 next.1 = .lt)
    (increasing : Increasing compare (pairs.map ofPair)) :
    Increasing compare ((pair :: pairs).map ofPair) := by
  refine List.isChain_cons.mpr ⟨?_, increasing⟩
  intro c first
  rw [List.head?_map] at first
  obtain ⟨next, member, rfl⟩ := Option.map_eq_some_iff.mp first
  exact behind next member

/-- Pairs that pass the check are in order, behind the last edge as well, and those kept are those
that change the value in force. -/
theorem keepPairs_eq_ok {bs : List (Breakpoint E T)}
    (checked : (keepPairs compare equal index before kept pairs).value = .ok bs) :
    (∀ last ∈ before, ∀ pair ∈ pairs.head?, compare last pair.1 = .lt) ∧
      Increasing compare (pairs.map ofPair) ∧
      bs = minimise (silent equal) kept (pairs.map ofPair) := by
  induction pairs generalizing index before kept bs with
  | nil =>
    cases checked
    exact ⟨by simp, increasing_nil, rfl⟩
  | cons pair later ih =>
    obtain ⟨edge, value⟩ := pair
    rw [keepPairs_cons] at checked
    split at checked
    · rename_i follows
      have ordered : ∀ last ∈ before, compare last edge = .lt := by
        simpa [Option.all_eq_true] using follows
      split at checked
      · rename_i absorbed
        obtain ⟨behind, increasing, rfl⟩ := ih checked
        refine ⟨by simpa using ordered, increasing_ofPair_cons (behind edge rfl) increasing, ?_⟩
        exact (if_pos (by exact absorbed)).symm
      · rename_i different
        obtain ⟨bs, checked', rfl⟩ := eq_ok_of_map checked
        obtain ⟨behind, increasing, rfl⟩ := ih checked'
        refine ⟨by simpa using ordered, increasing_ofPair_cons (behind edge rfl) increasing, ?_⟩
        exact (if_neg (by exact different)).symm
    · cases checked

theorem ofPairs_eq_ok {f : StepFunction E T}
    (checked : (ofPairs compare equal first pairs).value = .ok f) :
    Increasing compare (pairs.map ofPair) ∧
      f = ⟨first, minimise (silent equal) first (pairs.map ofPair)⟩ := by
  obtain ⟨bs, kept, rfl⟩ := eq_ok_of_map checked
  obtain ⟨-, increasing, rfl⟩ := keepPairs_eq_ok kept
  exact ⟨increasing, rfl⟩

theorem wellFormed_ofPairs [Std.TransCmp compare] {f : StepFunction E T}
    (checked : (ofPairs compare equal first pairs).value = .ok f) :
    WellFormed compare (silent equal) f := by
  obtain ⟨increasing, rfl⟩ := ofPairs_eq_ok checked
  exact ⟨increasing_minimise increasing, minimal_minimise⟩

end Pairs

/-- The step functions that a history of operations makes, all with one comparison, each with the
equality that it was last built with. A constant is built with any, and adding an empty interval
builds nothing. -/
inductive Built {E : Type} (compare : E → E → Ordering) :
    {T : Type} → (T → T → Bool) → StepFunction E T → Prop
  | constant {T : Type} (equal : T → T → Bool) (value : T) : Built compare equal (.constant value)
  | ofPairs {ω T : Type} (equal : T → T → Noted ω Bool) (first : T) (pairs : List (E × T))
      {f : StepFunction E T} (checked : (ofPairs compare equal first pairs).value = .ok f) :
      Built compare (silent equal) f
  | merge {A B R : Type} {equalA : A → A → Bool} {equalB : B → B → Bool} {f : StepFunction E A}
      {g : StepFunction E B} (equal : R → R → Bool) (reduce : A → B → R)
      (left : Built compare equalA f) (right : Built compare equalB g) :
      Built compare equal (f.merge ⟨compare, equal⟩ reduce g)
  | add {T : Type} {before : T → T → Bool} {f : StepFunction E T} (equal : T → T → Bool)
      (interval : Interval E T) (nonempty : compare interval.min interval.max = .lt)
      (source : Built compare before f) : Built compare equal (f.add ⟨compare, equal⟩ interval)
  | addEmpty {T : Type} {before : T → T → Bool} {f : StepFunction E T} (equal : T → T → Bool)
      (interval : Interval E T) (empty : compare interval.min interval.max ≠ .lt)
      (source : Built compare before f) : Built compare before (f.add ⟨compare, equal⟩ interval)
  | map {T R : Type} {before : T → T → Bool} {f : StepFunction E T} (equal : R → R → Bool)
      (change : T → R) (source : Built compare before f) : Built compare equal (f.map equal change)

theorem wellFormed_of_built [Std.TransCmp compare] {equal : T → T → Bool} {f : StepFunction E T}
    (built : Built compare equal f) : WellFormed compare equal f := by
  induction built with
  | constant equal value => exact wellFormed_constant
  | ofPairs equal first pairs checked => exact wellFormed_ofPairs checked
  | merge equal reduce left right leftFormed rightFormed =>
    exact wellFormed_merge leftFormed.increasing rightFormed.increasing
  | add equal interval nonempty source formed => exact wellFormed_add nonempty formed.increasing
  | addEmpty equal interval empty source formed =>
    rw [add_empty empty]
    exact formed
  | map equal change source formed => exact wellFormed_map formed.increasing

end WellFormed

end DemandLex.StepFunction
