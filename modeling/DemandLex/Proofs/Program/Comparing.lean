import DemandLex.Proofs.Program.CallByNeed
import DemandLex.Proofs.Sequence.Comparing

/-! Comparing the sequences of a program. All that a program has made stands in its store, whatever was
forced meanwhile, so that a comparison may stop where both sequences come to one node. -/

namespace DemandLex.Program

open Sequence

variable {ω ν : Type} {shelf shelf' : Shelf ω ν} {store store' : Store ω ν} {rounds : Nat}

def Shelf.Stands (shelf : Shelf ω ν) (store : Store ω ν) : Prop :=
  ∀ name s, (name, s) ∈ shelf.sequences → s.Stands store

section Stands

theorem Shelf.stands_empty : (Shelf.empty : Shelf ω ν).Stands .empty :=
  fun _ _ there => by cases there

theorem Shelf.Stands.lookup {name : String} {s : Sequence ν} (stands : shelf.Stands store)
    (found : shelf.sequences.lookup name = some s) : s.Stands store :=
  stands name s (Names.mem_of_lookup found)

theorem Shelf.Stands.later (stands : shelf.Stands store) (carries : store.Carries store') :
    shelf.Stands store' := fun name s there => (stands name s there).later carries

theorem roots_make {how : Make ω ν} {x : Lazy ω ν (Sequence ν)} (rooted : store.Rooted)
    (stands : shelf.Stands store) (made : shelf.make how = .ok x) :
    x.Roots store fun s store' => s.Stands store' := by
  cases how with
  | empty =>
    cases made
    exact Lazy.roots_pure rooted stands_none
  | once value =>
    cases made
    exact roots_single rooted (stands_none (ν := ν))
  | constant | items | unfold =>
    cases made
    exact roots_share rooted
  | prepend value source =>
    obtain ⟨s, found, made⟩ := Names.find_eq_ok.mp made
    cases made
    exact roots_single rooted (stands.lookup found)
  | cons value source notes =>
    obtain ⟨s, found, made⟩ := Names.find_eq_ok.mp made
    cases made
    exact roots_single rooted (stands.lookup found)
  | copy source =>
    obtain ⟨s, found, made⟩ := Names.find_eq_ok.mp made
    cases made
    exact Lazy.roots_pure rooted (stands.lookup found)
  | rest source =>
    obtain ⟨s, found, made⟩ := Names.find_eq_ok.mp made
    cases made
    exact roots_rest rooted
  | derive source | flatScan source =>
    obtain ⟨s, found, made⟩ := Names.find_eq_ok.mp made
    cases made
    exact roots_share rooted
  | inclusiveScan source machine | exclusiveScan source machine =>
    obtain ⟨s, found, made⟩ := Names.find_eq_ok.mp made
    obtain ⟨m, there, made⟩ := Names.find_eq_ok.mp made
    cases made
    exact roots_share rooted
  | dropWhile source drop =>
    obtain ⟨s, found, made⟩ := Names.find_eq_ok.mp made
    cases made
    exact roots_dropWhile rooted (stands.lookup found)
  | appendWith source other notes =>
    obtain ⟨s, found, made⟩ := Names.find_eq_ok.mp made
    obtain ⟨t, found', made⟩ := Names.find_eq_ok.mp made
    cases made
    exact roots_shareBefore rooted (stands.lookup found')
  | flatten parts =>
    obtain ⟨ss, among, made⟩ := Names.findAll_eq_ok made
    cases made
    exact roots_share rooted
  | reverse source =>
    obtain ⟨s, found, made⟩ := Names.find_eq_ok.mp made
    cases made
    exact roots_reverse rooted

theorem roots_ask {query : Query ω ν} {x : Lazy ω ν (Answer ν)} (rooted : store.Rooted)
    (asked : shelf.ask query = .ok x) : x.Roots store fun _ _ => True := by
  cases query with
  | isEmpty source | first source =>
    obtain ⟨s, found, asked⟩ := Names.find_eq_ok.mp asked
    cases asked
    exact Lazy.roots_pure rooted trivial
  | size source | last source | fold source =>
    obtain ⟨s, found, asked⟩ := Names.find_eq_ok.mp asked
    cases asked
    exact (roots_foldM rooted).map
  | list source | text source =>
    obtain ⟨s, found, asked⟩ := Names.find_eq_ok.mp asked
    cases asked
    exact (roots_toList rooted).map
  | iterTake source count =>
    obtain ⟨s, found, asked⟩ := Names.find_eq_ok.mp asked
    cases asked
    have visits : (s.iterTake count : Lazy ω ν (List ν)).Roots store fun _ _ => True :=
      (roots_iterateWhile rooted).bind fun _ _ _ rooted' _ => Lazy.roots_pure rooted' trivial
    exact visits.map
  | splitFirst source | uncons source =>
    obtain ⟨s, found, asked⟩ := Names.find_eq_ok.mp asked
    cases asked
    exact (roots_splitFirst rooted).map
  | equal source other same =>
    obtain ⟨s, found, asked⟩ := Names.find_eq_ok.mp asked
    obtain ⟨t, found', asked⟩ := Names.find_eq_ok.mp asked
    cases asked
    exact (roots_equal rooted).map
  | exclusiveFold source machine =>
    obtain ⟨s, found, asked⟩ := Names.find_eq_ok.mp asked
    obtain ⟨m, there, asked⟩ := Names.find_eq_ok.mp asked
    cases asked
    have folds : (s.exclusiveFold m).Roots store fun _ _ => True :=
      (roots_foldM rooted).bind fun _ _ _ rooted' _ => Lazy.roots_pure rooted' trivial
    exact folds.map

theorem rooted_act {step : Step ω ν} {answer : Answer ν} (rooted : store.Rooted)
    (stands : shelf.Stands store)
    (acted : shelf.act rounds step store = .ok (answer, shelf', store')) :
    store'.Rooted ∧ shelf'.Stands store' := by
  cases step with
  | make name how =>
    obtain ⟨x, s, made, came, rfl⟩ := act_make acted
    obtain ⟨carries, rooted', here⟩ := roots_make rooted stands made rounds s store' came
    refine ⟨rooted', fun name' t there => ?_⟩
    rcases List.mem_cons.mp there with same | there
    · cases same
      exact here
    · exact (stands name' t there).later carries
  | makeMachine name how =>
    obtain ⟨made, came, rfl, rfl⟩ := act_makeMachine acted
    have kept : shelf.Stands (store.log made.notes) := stands.later (.of_spines_eq rfl)
    exact ⟨rooted.congr rfl, kept⟩
  | ask query =>
    obtain ⟨x, asked, came, rfl⟩ := act_ask acted
    obtain ⟨carries, rooted', -⟩ := roots_ask rooted asked rounds answer store' came
    exact ⟨rooted', stands.later carries⟩
  | machineValue machine =>
    obtain ⟨m, -, same⟩ := Names.find_eq_ok.mp acted
    cases same
    exact ⟨rooted, stands⟩
  | drop name =>
    cases acted
    exact ⟨rooted, fun name' s there => stands name' s (List.mem_of_mem_filter there)⟩

theorem rooted_leave {steps : List (Step ω ν)} (rooted : store.Rooted) (stands : shelf.Stands store)
    (left : shelf.leave rounds store steps = .ok (shelf', store')) :
    store'.Rooted ∧ shelf'.Stands store' := by
  induction steps generalizing shelf store with
  | nil =>
    cases left
    exact ⟨rooted, stands⟩
  | cons step later ih =>
    obtain ⟨answer, shelf₁, store₁, acted, left⟩ := leave_cons left
    obtain ⟨rooted₁, stands₁⟩ := rooted_act rooted stands acted
    exact ih rooted₁ stands₁ left

end Stands

/-- Sequences of a program that both end, or differ, or come to one node, are compared with looks behind
the elements before the first difference or shared node, and no others. The answer is whether they
have the same elements, which is what a comparison answers that does not stop at shared nodes, if it
comes back. -/
theorem compares_up_to_sharing {steps : List (Step ω ν)} {source other : String} {s t : Sequence ν}
    {same : ν → ν → Bool}
    (left : (Shelf.empty : Shelf ω ν).leave rounds .empty steps = .ok (shelf, store))
    (found : shelf.sequences.lookup source = some s)
    (found' : shelf.sequences.lookup other = some t)
    (reflexive : ∀ value, same value value = true) :
    (∃ M, store.Ready M) ∧ ∀ M, store.Ready M → M.Comparable same s t →
      ∃ xs ys answer, M.Decides same s t xs ys answer ∧
        (∃ store' enough, store.Undergoes (lookingBoth xs ys) store' ∧ ∀ rounds', enough ≤ rounds' →
          shelf.act rounds' (.ask (.equal source other same)) store =
            .ok (.yes answer, shelf, store')) ∧
        (answer = true ↔ M.SameElements same s t) ∧
        (∀ values values', M.Holds s values → M.Holds t values' →
          (answer = true ↔ List.Forall₂ (fun a b => same a b = true) values values')) ∧
        ∀ fuel answer' last, s.equalThroughout same t fuel store = some (answer', last) →
          answer' = answer := by
  obtain ⟨rooted, stands⟩ := rooted_leave Store.rooted_empty Shelf.stands_empty left
  have here := stands.lookup found
  have here' := stands.lookup found'
  refine ⟨?_, fun M ready comparable => ?_⟩
  · obtain ⟨_, M, -, leaves, -⟩ :=
      Twin.once_of_leave Store.ready_empty Twin.fits_empty Store.once_empty left
    exact ⟨M, leaves.ready⟩
  · obtain ⟨xs, ys, answer, decides⟩ := comparable.decides
    have alike := decides.sameElements ready rooted here here' reflexive
    refine ⟨xs, ys, answer, decides, ?_, alike, ?_, ?_⟩
    · obtain ⟨s', t', walks, walks', level, stop⟩ := decides
      obtain ⟨store', ⟨enough, settles⟩, undergoes, -⟩ :=
        (does_equal ready here.has here'.has walks walks' level stop).map (g := Answer.yes)
      refine ⟨store', enough, undergoes, fun rounds' more => ?_⟩
      have asked : shelf.ask (.equal source other same) = .ok (Answer.yes <$> s.equal same t) := by
        simp only [Shelf.ask, Names.find, found, found']
      exact act_of_ask asked (settles rounds' more)
    · intro values values' left right
      rw [alike, Meaning.sameElements_holds left right]
    · intro fuel answer' last result
      have alike' := sameElements_of_equalThroughout ready here.has here'.has result
      exact Bool.eq_iff_iff.mpr (alike'.trans alike.symm)

/-- Two sequences with a 7 in front of one endless sequence are equal, which is found with a look behind
the 7 of each. -/
theorem compares_up_to_sharing_endless :
    ∃ (shelf : Shelf Nat Nat) (store store' : Store Nat Nat) (enough : Nat),
      (Shelf.empty : Shelf Nat Nat).leave 20 .empty
        [.make "numbers" (.unfold 0 fun n => ⟨[n], some (n, n + 1)⟩),
          .make "left" (.prepend 7 "numbers"), .make "right" (.prepend 7 "numbers")] =
        .ok (shelf, store) ∧
      shelf.sequences.lookup "left" = some (some ⟨7, 1, 0⟩) ∧
      shelf.sequences.lookup "right" = some (some ⟨7, 2, 0⟩) ∧
      store.Undergoes [.look ⟨1, 0⟩, .look ⟨2, 0⟩] store' ∧
      ∀ rounds, enough ≤ rounds →
        shelf.act rounds (.ask (.equal "left" "right" (· == ·))) store =
          .ok (.yes true, shelf, store') := by
  obtain ⟨shelf, store, left, found, found', first, second⟩ :
      ∃ (shelf : Shelf Nat Nat) (store : Store Nat Nat),
        (Shelf.empty : Shelf Nat Nat).leave 20 .empty
          [.make "numbers" (.unfold 0 fun n => ⟨[n], some (n, n + 1)⟩),
            .make "left" (.prepend 7 "numbers"), .make "right" (.prepend 7 "numbers")] =
          .ok (shelf, store) ∧
        shelf.sequences.lookup "left" = some (some ⟨7, 1, 0⟩) ∧
        shelf.sequences.lookup "right" = some (some ⟨7, 2, 0⟩) ∧
        store.spines[1]? = some ⟨#[7], .closed (some ⟨0, 0, 0⟩)⟩ ∧
        store.spines[2]? = some ⟨#[7], .closed (some ⟨0, 0, 0⟩)⟩ :=
    ⟨_, _, rfl, rfl, rfl, rfl, rfl⟩
  obtain ⟨⟨M, ready⟩, compares⟩ := @compares_up_to_sharing Nat Nat shelf store 20 _ "left" "right" _ _
    (· == ·) left found found' (by simp)
  have follows : M.after ⟨1, 0⟩ = some (some ⟨0, 0, 0⟩) := (ready.fits.frontier _ _ first).1
  have follows' : M.after ⟨2, 0⟩ = some (some ⟨0, 0, 0⟩) := (ready.fits.frontier _ _ second).1
  obtain ⟨xs, ys, answer, ⟨s', t', walks, walks', level, stop⟩, ⟨store', enough, undergoes, asked⟩, -⟩ :=
    compares M ready (.shared (.cons follows .nil) (.cons follows' .nil) rfl rfl)
  -- the sequences are one behind the 7, and not before it
  cases level with
  | nil =>
    cases walks
    cases walks'
    cases stop
  | cons pass level =>
    cases walks with
    | cons one walks =>
      cases walks' with
      | cons one' walks' =>
        cases follows.symm.trans one
        cases follows'.symm.trans one'
        cases level with
        | nil =>
          cases walks
          cases walks'
          cases stop
          exact ⟨shelf, store, store', enough, left, found, found', undergoes, asked⟩
        | cons pass level =>
          cases walks
          cases walks'
          cases pass

end DemandLex.Program
