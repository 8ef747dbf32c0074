import DemandLex.Proofs.Sequence.Exposure
import DemandLex.Proofs.Sequence.ListFunctions
import Mathlib.Data.List.Infix

/-! What dropping repeated elements keeps, for any relation of being equal. The relation is put to the
last element kept and not to the one just before, so that what is kept depends on all that came
earlier; still the places that are kept are determined by what they satisfy. -/

namespace DemandLex

variable {α : Type} {equal : α → α → Bool} {items : List α} {kept kept' : Nat → Bool} {i j n : Nat}

structure LastKept (kept : Nat → Bool) (i j : Nat) : Prop where
  before : i < j
  keeps : kept i = true
  dropped (l : Nat) : i < l → l < j → kept l = false

/-- The places of a list that are kept: the first one is, an element that is kept is not equal to the
one kept last before it, and an element that is dropped is. -/
structure Thins (equal : α → α → Bool) (items : List α) (kept : Nat → Bool) : Prop where
  first : kept 0 = true
  apart {i j : Nat} {p q : α} : LastKept kept i j → items[i]? = some p → items[j]? = some q →
    kept j = true → equal p q = false
  alike {i j : Nat} {p x : α} : LastKept kept i j → items[i]? = some p → items[j]? = some x →
    kept j = false → equal p x = true

def selected (kept : Nat → Bool) (items : List α) : List α :=
  (items.zipIdx.filter fun item => kept item.2).map Prod.fst

theorem LastKept.unique {i' : Nat} (left : LastKept kept i j) (right : LastKept kept i' j) :
    i = i' := by
  by_contra apart
  rcases Nat.lt_or_gt_of_ne apart with less | more
  · cases right.keeps.symm.trans (left.dropped i' less right.before)
  · cases left.keeps.symm.trans (right.dropped i more left.before)

theorem LastKept.congr (last : LastKept kept i j) (same : ∀ l < j, kept' l = kept l) :
    LastKept kept' i j where
  before := last.before
  keeps := (same i last.before).trans last.keeps
  dropped l more less := (same l less).trans (last.dropped l more less)

theorem exists_lastKept (first : kept 0 = true) (j : Nat) : ∃ i, LastKept kept i (j + 1) := by
  induction j with
  | zero => exact ⟨0, Nat.one_pos, first, fun l more less => by omega⟩
  | succ j ih =>
    cases here : kept (j + 1) with
    | true => exact ⟨j + 1, Nat.lt_succ_self _, here, fun l more less => by omega⟩
    | false =>
      obtain ⟨i, before, keeps, dropped⟩ := ih
      refine ⟨i, Nat.lt_succ_of_lt before, keeps, fun l more less => ?_⟩
      rcases Nat.lt_succ_iff_lt_or_eq.mp less with less | rfl
      · exact dropped l more less
      · exact here

/-- The places that are kept are determined by what they satisfy. -/
theorem Thins.unique (left : Thins equal items kept) (right : Thins equal items kept')
    (inside : j < items.length) : kept j = kept' j := by
  induction j using Nat.strongRecOn with
  | ind j ih =>
    cases j with
    | zero => exact left.first.trans right.first.symm
    | succ j =>
      obtain ⟨i, last⟩ := exists_lastKept left.first j
      have last' : LastKept kept' i (j + 1) :=
        last.congr fun l less => (ih l less (less.trans inside)).symm
      have here := List.getElem?_eq_getElem inside
      have before := List.getElem?_eq_getElem (last.before.trans inside)
      cases keeps : kept (j + 1) <;> cases keeps' : kept' (j + 1)
      · rfl
      · cases (left.alike last before here keeps).symm.trans (right.apart last' before here keeps')
      · cases (left.apart last before here keeps).symm.trans (right.alike last' before here keeps')
      · rfl

theorem selected_sublist : (selected kept items).Sublist items := by
  have sublist : (selected kept items).Sublist (items.zipIdx.map Prod.fst) :=
    List.filter_sublist.map Prod.fst
  rwa [List.zipIdx_map_fst] at sublist

theorem selected_concat {x : α} : selected kept (items ++ [x]) =
    selected kept items ++ if kept items.length then [x] else [] := by
  rw [selected, List.zipIdx_append, List.filter_append, List.map_append]
  congr 1
  rw [Nat.zero_add, List.zipIdx_singleton]
  cases keeps : kept items.length <;> simp [keeps]

theorem selected_congr (same : ∀ l < items.length, kept' l = kept l) :
    selected kept' items = selected kept items := by
  rw [selected, selected]
  congr 1
  apply List.filter_congr
  intro item inside
  exact same _ (List.snd_lt_of_mem_zipIdx inside)

section Destutter
variable {R : α → α → Prop} [DecidableRel R]

theorem destutter'_concat (a x : α) (items : List α) :
    ∃ p, (items.destutter' R a).getLast? = some p ∧
      (items ++ [x]).destutter' R a = items.destutter' R a ++ if R p x then [x] else [] := by
  induction items generalizing a with
  | nil =>
    refine ⟨a, rfl, ?_⟩
    by_cases related : R a x <;> simp [related]
  | cons b items ih =>
    by_cases related : R a b
    · obtain ⟨p, last, same⟩ := ih b
      rw [List.cons_append, List.destutter'_cons_pos _ related, List.destutter'_cons_pos _ related,
        same]
      exact ⟨p, by rw [List.getLast?_cons, last]; rfl, rfl⟩
    · rw [List.cons_append, List.destutter'_cons_neg _ related, List.destutter'_cons_neg _ related]
      exact ih a

theorem destutter_concat (x : α) (some_item : items ≠ []) :
    ∃ p, (items.destutter R).getLast? = some p ∧
      (items ++ [x]).destutter R = items.destutter R ++ if R p x then [x] else [] := by
  obtain ⟨a, later, rfl⟩ := List.exists_cons_of_ne_nil some_item
  exact destutter'_concat a x later

end Destutter

section Keeps

/-- What is left of a list where every element is dropped that is equal to the one kept last. -/
def thinned (equal : α → α → Bool) (items : List α) : List α :=
  items.destutter fun p q => equal p q = false

def keeps (equal : α → α → Bool) (items : List α) (j : Nat) : Bool :=
  match (thinned equal (items.take j)).getLast?, items[j]? with
  | some p, some x => !equal p x
  | _, _ => true

variable {p x : α}

theorem keeps_eq (last : (thinned equal (items.take j)).getLast? = some p)
    (here : items[j]? = some x) : keeps equal items j = !equal p x := by
  rw [keeps, last, here]

theorem thinned_take_succ (here : items[j]? = some x) :
    thinned equal (items.take (j + 1)) =
      thinned equal (items.take j) ++ if keeps equal items j then [x] else [] := by
  have more : items.take (j + 1) = items.take j ++ [x] := by
    rw [List.take_add_one, here, Option.toList_some]
  by_cases nothing : items.take j = []
  · rw [more, keeps, nothing]
    rfl
  · obtain ⟨p, last, concat⟩ := destutter_concat (R := fun p q => equal p q = false) x nothing
    rw [more, keeps_eq last here]
    refine concat.trans ?_
    cases equal p x <;> rfl

/-- The last element that is left stands at the last place that is kept. -/
theorem exists_lastKept_keeps (inside : j ≤ items.length)
    (last : (thinned equal (items.take j)).getLast? = some p) :
    ∃ i, LastKept (keeps equal items) i j ∧ items[i]? = some p := by
  induction j with
  | zero => cases last
  | succ j ih =>
    have here := List.getElem?_eq_getElem inside
    rw [thinned_take_succ here] at last
    cases kept : keeps equal items j with
    | true =>
      rw [kept, if_pos rfl, List.getLast?_concat] at last
      cases last
      exact ⟨j, ⟨Nat.lt_succ_self _, kept, fun l more less => by omega⟩, here⟩
    | false =>
      rw [kept, if_neg Bool.false_ne_true, List.append_nil] at last
      obtain ⟨i, ⟨before, keeps, dropped⟩, there⟩ := ih (Nat.le_of_lt inside) last
      refine ⟨i, ⟨Nat.lt_succ_of_lt before, keeps, fun l more less => ?_⟩, there⟩
      rcases Nat.lt_succ_iff_lt_or_eq.mp less with less | rfl
      · exact dropped l more less
      · exact kept

theorem getLast?_of_lastKept (last : LastKept (keeps equal items) i j) (inside : j ≤ items.length)
    (there : items[i]? = some p) : (thinned equal (items.take j)).getLast? = some p := by
  cases left : (thinned equal (items.take j)).getLast? with
  | none =>
    rw [List.getLast?_eq_none_iff, thinned, List.destutter_eq_nil, List.take_eq_nil_iff] at left
    rcases left with rfl | rfl
    · cases last.before
    · cases there
  | some p' =>
    obtain ⟨i', last', there'⟩ := exists_lastKept_keeps inside left
    cases last.unique last'
    exact there'.symm.trans there

theorem thins_keeps (equal : α → α → Bool) (items : List α) :
    Thins equal items (keeps equal items) := by
  have decided {i j : Nat} {p x : α} (last : LastKept (keeps equal items) i j)
      (there : items[i]? = some p) (here : items[j]? = some x) :
      keeps equal items j = !equal p x :=
    keeps_eq (getLast?_of_lastKept last (List.getElem?_eq_some_iff.mp here).1.le there) here
  refine ⟨rfl, fun last there here kept => ?_, fun last there here dropped => ?_⟩
  · simpa [kept] using decided last there here
  · simpa [dropped] using decided last there here

theorem selected_keeps (equal : α → α → Bool) (items : List α) :
    selected (keeps equal items) items = thinned equal items := by
  suffices ∀ j ≤ items.length, selected (keeps equal items) (items.take j) =
      thinned equal (items.take j) by
    simpa using this items.length le_rfl
  intro j inside
  induction j with
  | zero => rfl
  | succ j ih =>
    have here := List.getElem?_eq_getElem inside
    rw [thinned_take_succ here, ← ih (Nat.le_of_lt inside), List.take_add_one, here,
      Option.toList_some, selected_concat, List.length_take, Nat.min_eq_left (Nat.le_of_lt inside)]

end Keeps

theorem head?_selected (first : kept 0 = true) : (selected kept items).head? = items.head? := by
  cases items with
  | nil => rfl
  | cons x later =>
    rw [selected, List.zipIdx_cons, List.filter_cons, if_pos first]
    rfl

section Dedup
variable {ω ν : Type} {M : Meaning ν} {store : Store ω ν} {s : Sequence ν} {values : List ν}

theorem returns_dedup (equal : ν → ν → Noted ω Bool) (ready : store.Ready M)
    (lists : s.Lists values store M) :
    ((Producer.ofSequence s).dedup equal).share.Returns store M fun t store' M' =>
      t.Lists (thinned (fun p q => (equal p q).value) values) store' M' := by
  rw [thinned, ← Producer.scanned_dedup]
  exact Sequence.returns_scanFilter ready lists

/-- Dropping repeated elements keeps the elements at the places where these conditions hold, which
leave no choice: the first element is kept, the later ones just where they are not equal to the one
kept last before. So what is kept is a part of the list that begins as it does, no two neighbours of
it are equal, and it is kept whole when repeated elements are dropped once more. -/
theorem dedup_thins (equal : ν → ν → Noted ω Bool) (ready : store.Ready M)
    (lists : s.Lists values store M) :
    ∃ kept, Thins (fun p q => (equal p q).value) values kept ∧
      (∀ kept', Thins (fun p q => (equal p q).value) values kept' →
        ∀ j < values.length, kept' j = kept j) ∧
      (selected kept values).Sublist values ∧
      (selected kept values).head? = values.head? ∧
      (selected kept values).IsChain (fun p q => (equal p q).value = false) ∧
      ((Producer.ofSequence s).dedup equal).share.Returns store M fun t store' M' =>
        t.Lists (selected kept values) store' M' ∧
        ((Producer.ofSequence t).dedup equal).share.Returns store' M' fun u store'' M'' =>
          u.Lists (selected kept values) store'' M'' := by
  have thins := thins_keeps (fun p q => (equal p q).value) values
  have same := selected_keeps (fun p q => (equal p q).value) values
  refine ⟨_, thins, fun kept' thins' j inside => thins'.unique thins inside, selected_sublist,
    head?_selected thins.first, ?_, ?_⟩
  · rw [same]
    exact List.isChain_destutter _ values
  · apply (returns_dedup equal ready lists).mono
    intro t store' M' leaves lists'
    have again := returns_dedup equal leaves.ready lists'
    rw [thinned, thinned, List.destutter_idem] at again
    rw [same]
    exact ⟨lists', again⟩

/-- An element is dropped where it is the successor of the one kept last, which is a relation that
is not reflexive, not symmetric and not transitive. -/
theorem dedup_thins_successors :
    ∃ (s : Sequence Nat) (store : Store Nat Nat) (M : Meaning Nat) (kept : Nat → Bool),
      store.Ready M ∧ s.Lists [1, 2, 3, 2, 3, 3] store M ∧
      Thins (fun p q => q == p + 1) [1, 2, 3, 2, 3, 3] kept ∧
      selected kept [1, 2, 3, 2, 3, 3] = [1, 3, 2] ∧
      ((Producer.ofSequence s).dedup fun p q => ⟨[q], q == p + 1⟩).share.Returns store M
        fun t store' M' => t.Lists [1, 3, 2] store' M' := by
  obtain ⟨s, store, M, cells, -, ready, has, walks, values⟩ :=
    Store.exists_shared (ω := Nat) [1, 2, 3, 2, 3, 3]
  have lists : s.Lists [1, 2, 3, 2, 3, 3] store M := ⟨has, values ▸ walks.holds⟩
  obtain ⟨kept, thins, unique, -, -, -, returns⟩ :=
    dedup_thins (fun p q => ⟨[q], q == p + 1⟩) ready lists
  have same : selected kept [1, 2, 3, 2, 3, 3] = [1, 3, 2] := by
    rw [← selected_congr (unique _ (thins_keeps _ _)), selected_keeps]
    decide
  rw [same] at returns
  exact ⟨s, store, M, kept, ready, lists, thins, same,
    returns.mono fun t store' M' leaves found => found.1⟩

end Dedup

end DemandLex
