import DemandLex.Proofs.StepFunction.Increasing
import DemandLex.StepFunction.Tree

/-! Look-up trees hold the step function they were built from, and look it up. -/

namespace DemandLex.LookupTree

variable {E T : Type} {compare : E → E → Ordering}

def leaves : LookupTree E T → List T
  | leaf value => [value]
  | node left _ right => left.leaves ++ right.leaves

def keys : LookupTree E T → List E
  | leaf _ => []
  | node left rightMin right => left.keys ++ rightMin :: right.keys

/-- What a tree writes in order: the value of its first leaf, and a breakpoint for every key with
the value of the leaf behind it. -/
def toStepFunction : LookupTree E T → StepFunction E T
  | leaf value => ⟨value, []⟩
  | node left rightMin right =>
    ⟨left.toStepFunction.first, left.toStepFunction.breakpoints ++
      ⟨rightMin, right.toStepFunction.first⟩ :: right.toStepFunction.breakpoints⟩

theorem leaves_eq (t : LookupTree E T) :
    t.leaves = t.toStepFunction.first :: t.toStepFunction.breakpoints.map Breakpoint.value := by
  induction t with
  | leaf value => rfl
  | node left rightMin right first second =>
    rw [leaves, first, second]
    simp [toStepFunction]

theorem keys_eq (t : LookupTree E T) :
    t.keys = t.toStepFunction.breakpoints.map Breakpoint.edge := by
  induction t with
  | leaf value => rfl
  | node left rightMin right first second =>
    rw [keys, first, second]
    simp [toStepFunction]

theorem leafCount_eq (t : LookupTree E T) :
    t.leafCount = t.toStepFunction.breakpoints.length + 1 := by
  induction t with
  | leaf value => rfl
  | node left rightMin right first second =>
    rw [leafCount, first, second]
    simp only [toStepFunction, List.length_append, List.length_cons]
    omega

theorem get_toStepFunction [Std.TransCmp compare] (t : LookupTree E T) (key : E)
    (increasing : StepFunction.Increasing compare t.toStepFunction.breakpoints) :
    t.toStepFunction.get compare key = t.get compare key := by
  induction t with
  | leaf value => rfl
  | node left rightMin right first second =>
    simp only [toStepFunction] at increasing
    have inLeft := first (increasing.sublist (List.sublist_append_left _ _))
    have inRight := second (increasing.sublist
      ((List.sublist_cons_self _ _).trans (List.sublist_append_right _ _)))
    simp only [StepFunction.get] at inLeft inRight
    simp only [StepFunction.get, toStepFunction, get]
    rw [StepFunction.valueFrom_append increasing, inLeft, inRight]
    by_cases before : compare key rightMin = .lt
    · rw [if_pos (Std.OrientedCmp.gt_of_lt before), before]
    · rw [if_neg fun after => before (Std.OrientedCmp.lt_of_gt after)]
      split
      · contradiction
      · rfl

section Balanced

private theorem take_append_cons {α : Type} (items : List α) (size behind : Nat)
    (inside : size < items.length) :
    items.take size ++ items[size] :: (items.drop (size + 1)).take behind =
      items.take (size + 1 + behind) := by
  rw [Nat.add_assoc, List.take_add, List.drop_eq_getElem_cons inside, Nat.add_comm 1 behind,
    List.take_succ_cons]

theorem toStepFunction_halve (first : T) (breakpoints : Array (Breakpoint E T)) (low high : Nat)
    (ordered : low < high) (inside : high ≤ breakpoints.size + 1) :
    (halve first breakpoints low high ordered inside).toStepFunction =
      ⟨(first :: breakpoints.toList.map Breakpoint.value).getD low first,
        (breakpoints.toList.drop low).take (high - low - 1)⟩ := by
  fun_induction halve first breakpoints low high ordered inside with
  | case1 low high ordered inside single =>
    have none : high - low - 1 = 0 := by omega
    rw [none, List.take_zero, toStepFunction]
    congr 1
    cases low with
    | zero => rfl
    | succ i =>
      have bound : i < breakpoints.size := by omega
      simp [bound]
  | case2 low high ordered inside several middle bound left right =>
    have first_half : middle - low - 1 < (breakpoints.toList.drop low).length := by
      simp only [List.length_drop, Array.length_toList]
      omega
    have last : low + (middle - low - 1) = middle - 1 := by omega
    have behind : low + (middle - low - 1 + 1) = middle := by omega
    have all : middle - low - 1 + 1 + (high - middle - 1) = high - low - 1 := by omega
    have value : (first :: breakpoints.toList.map Breakpoint.value).getD middle first =
        breakpoints[middle - 1].value := by
      rw [List.getD_eq_getElem?_getD, List.getElem?_cons, if_neg (by omega)]
      simp [bound]
    rw [toStepFunction, left, right, value, ← all,
      ← take_append_cons _ _ _ first_half, List.drop_drop, behind, List.getElem_drop]
    simp only [last, Array.getElem_toList]

theorem toStepFunction_balanced (s : StepFunction E T) : (balanced s).toStepFunction = s := by
  rw [balanced, toStepFunction_halve]
  simp

end Balanced

section Sequential

theorem splitList_cons (b : Breakpoint E T) (tail : List (Breakpoint E T)) :
    splitList (b :: tail) = pure (some (b, tail)) := rfl

/-- A subtree holds its first value and what it took from the front of the breakpoints. -/
theorem buildLimited_splitList (first : T) (rest : List (Breakpoint E T)) (limit : Nat) :
    ∃ t taken remaining, buildLimited splitList first rest limit = pure (t, remaining) ∧
      rest = taken ++ remaining ∧ t.toStepFunction = ⟨first, taken⟩ := by
  induction limit generalizing first rest with
  | zero => exact ⟨leaf first, [], rest, rfl, rfl, rfl⟩
  | succ limit ih =>
    obtain ⟨left, taken, remaining, built, same, reads⟩ := ih first rest
    rw [buildLimited, built, pure_bind]
    cases remaining with
    | nil => exact ⟨left, taken, [], rfl, same, reads⟩
    | cons b tail =>
      obtain ⟨right, taken', remaining', built', same', reads'⟩ := ih b.value tail
      refine ⟨node left b.edge right, taken ++ b :: taken', remaining', ?_, ?_, ?_⟩
      · simp only [splitList_cons, pure_bind, built']
      · rw [same, same', List.append_assoc, List.cons_append]
      · simp only [toStepFunction, reads, reads']

theorem length_of_buildLimited {first : T} {rest remaining : List (Breakpoint E T)} {limit : Nat}
    {t : LookupTree E T} (built : buildLimited splitList first rest limit = pure (t, remaining)) :
    remaining.length ≤ rest.length := by
  obtain ⟨t', taken, remaining', built', rfl, -⟩ := buildLimited_splitList first rest limit
  have same : (t, remaining) = (t', remaining') := built.symm.trans built'
  cases same
  rw [List.length_append]
  exact Nat.le_add_left _ _

theorem growFrom_cons {rounds level : Nat} {t right : LookupTree E T} {b : Breakpoint E T}
    {tail remaining : List (Breakpoint E T)}
    (built : buildLimited splitList b.value tail level = pure (right, remaining)) :
    growFrom (rounds + 1) (t, b :: tail, level) =
      growFrom rounds (node t b.edge right, remaining, level + 1) := by
  have step : (grow splitList (t, b :: tail, level)).run =
      .inl (node t b.edge right, remaining, level + 1) := by
    show (do
      let (right, rest) ← buildLimited splitList b.value tail level
      pure (Sum.inl (node t b.edge right, rest, level + 1)) : Id _).run = _
    rw [built]
    rfl
  rw [growFrom, step]

theorem toStepFunction_growFrom (rounds : Nat) (t : LookupTree E T)
    (rest : List (Breakpoint E T)) (level : Nat) (enough : rest.length < rounds) :
    (growFrom rounds (t, rest, level)).toStepFunction =
      ⟨t.toStepFunction.first, t.toStepFunction.breakpoints ++ rest⟩ := by
  induction rounds generalizing t rest level with
  | zero => cases enough
  | succ rounds ih =>
    cases rest with
    | nil =>
      rw [List.append_nil]
      rfl
    | cons b tail =>
      obtain ⟨right, taken, remaining, built, same, reads⟩ :=
        buildLimited_splitList b.value tail level
      have shorter := length_of_buildLimited built
      rw [growFrom_cons built, ih _ _ _ (by simp only [List.length_cons] at enough; omega), same]
      simp only [toStepFunction, reads, List.append_assoc, List.cons_append]

theorem toStepFunction_sequential (s : StepFunction E T) :
    (sequential s).toStepFunction = s := by
  rw [sequential, toStepFunction_growFrom _ _ _ _ (Nat.lt_succ_self _)]
  rfl

end Sequential

end DemandLex.LookupTree
