import DemandLex.Proofs.Sequence.Exposure
import DemandLex.Proofs.Sequence.Making

/-! What consumers do to the store of the sequences that they read: the notes they take and the looks
they make, in their order, up to where a consumer stops, and whether it comes back at all. -/

namespace DemandLex

open Effect

variable {ω ν α β : Type} {M : Meaning ν} {store store' : Store ω ν} {effects : List (Effect ω)}

namespace Lazy

/-- On enough fuel the computation comes back with the value, and these are all its effects. It
makes no sequences, so that the store keeps its meaning. -/
def Does (x : Lazy ω ν α) (store : Store ω ν) (M : Meaning ν) (effects : List (Effect ω))
    (value : α) : Prop :=
  ∃ store', Store.Settles (fun fuel => x fuel store) (value, store') ∧
    store.Undergoes effects store' ∧ store.Leaves M store' M

def Hangs (x : Lazy ω ν α) (store : Store ω ν) : Prop := ∀ fuel, x fuel store = none

/-- The first computation has these effects and goes on as the second one, on the store that they
leave. -/
structure Leads (x : Lazy ω ν α) (store : Store ω ν) (M : Meaning ν) (effects : List (Effect ω))
    (y : Lazy ω ν α) (store' : Store ω ν) : Prop where
  does {later : List (Effect ω)} {value : α} :
    y.Does store' M later value → x.Does store M (effects ++ later) value
  hangs : y.Hangs store' → x.Hangs store

structure DoesTo (x : Lazy ω ν α) (store : Store ω ν) (M : Meaning ν) (effects : List (Effect ω))
    (value : α) (store' : Store ω ν) : Prop where
  settles : Store.Settles (fun fuel => x fuel store) (value, store')
  undergoes : store.Undergoes effects store'
  leaves : store.Leaves M store' M

section DoesTo
variable {x : Lazy ω ν α} {f : α → Lazy ω ν β} {last : Store ω ν} {effects' : List (Effect ω)}
  {value : α} {result : β}

theorem DoesTo.does (does : x.DoesTo store M effects value store') : x.Does store M effects value :=
  ⟨store', does.settles, does.undergoes, does.leaves⟩

theorem doesTo_pure (value : α) (ready : store.Ready M) :
    (pure value : Lazy ω ν α).DoesTo store M [] value store :=
  ⟨⟨0, fun _ _ => rfl⟩, .nil, .refl ready⟩

theorem DoesTo.bind (first : x.DoesTo store M effects value store')
    (next : (f value).DoesTo store' M effects' result last) :
    (x >>= f).DoesTo store M (effects ++ effects') result last :=
  ⟨settles_bind first.settles next.settles, first.undergoes.append next.undergoes,
    first.leaves.trans next.leaves⟩

theorem DoesTo.map {g : α → β} (does : x.DoesTo store M effects value store') :
    (g <$> x).DoesTo store M effects (g value) store' := by
  rw [map_eq_pure_bind, ← List.append_nil effects]
  exact does.bind (doesTo_pure _ does.leaves.ready)

theorem DoesTo.leads (does : x.DoesTo store M effects value store') (steady : x.Steady) :
    (x >>= f).Leads store M effects (f value) store' where
  does := by
    rintro later result ⟨last, settles, undergoes, leaves⟩
    exact ⟨last, settles_bind does.settles settles, does.undergoes.append undergoes,
      does.leaves.trans leaves⟩
  hangs hangs fuel := by
    cases came : x fuel store with
    | none => simp only [Bind.bind, came]
    | some answer =>
      cases steady.unique came does.settles
      simp only [Bind.bind, came, hangs fuel]

end DoesTo

/-- So many rounds of a loop, each of which goes on, with all that they do. -/
inductive Rounds (step : β → Lazy ω ν (β ⊕ α)) (M : Meaning ν) (store : Store ω ν) (start : β) :
    Nat → List (Effect ω) → Store ω ν → β → Prop
  | start : Rounds step M store start 0 [] store start
  | more {n : Nat} {effects effects' : List (Effect ω)} {store' last : Store ω ν} {state next : β}
      (before : Rounds step M store start n effects store' state)
      (round : (step state).DoesTo store' M effects' (.inl next) last) :
      Rounds step M store start (n + 1) (effects ++ effects') last next

section Rounds
variable {step : β → Lazy ω ν (β ⊕ α)} {start state : β} {last : Store ω ν} {n : Nat}
  {effects' : List (Effect ω)} {value : α}

theorem Rounds.undergoes (rounds : Rounds step M store start n effects store' state) :
    store.Undergoes effects store' := by
  induction rounds with
  | start => exact .nil
  | more before round ih => exact ih.append round.undergoes

theorem Rounds.iterate (steady : ∀ state, (step state).Steady)
    (rounds : Rounds step M store start n effects store' state)
    (later : (Lazy.iterate step state).DoesTo store' M effects' value last) :
    (Lazy.iterate step start).DoesTo store M (effects ++ effects') value last := by
  induction rounds generalizing effects' with
  | start => exact later
  | more before round ih =>
    rw [List.append_assoc]
    exact ih ⟨settles_iterate steady round.settles later.settles,
      round.undergoes.append later.undergoes, round.leaves.trans later.leaves⟩

theorem DoesTo.iterate (round : (step start).DoesTo store M effects (.inr value) store') :
    (Lazy.iterate step start).DoesTo store M effects value store' :=
  ⟨settles_iterate_last round.settles, round.undergoes, round.leaves⟩

end Rounds

section Leads
variable {x y z : Lazy ω ν α} {f : β → Lazy ω ν α} {value : α}

theorem does_pure (ready : store.Ready M) : (pure value : Lazy ω ν α).Does store M [] value :=
  (doesTo_pure value ready).does

theorem Does.map {g : α → β} (does : x.Does store M effects value) :
    (g <$> x).Does store M effects (g value) := by
  obtain ⟨store', settles, undergoes, leaves⟩ := does
  exact (DoesTo.mk settles undergoes leaves).map.does

theorem Hangs.map {g : α → β} (hangs : x.Hangs store) : (g <$> x).Hangs store := by
  intro fuel
  rw [map_eq_pure_bind]
  simp only [Bind.bind, hangs fuel]

theorem Leads.refl : x.Leads store M [] x store := ⟨id, id⟩

theorem Leads.trans {last : Store ω ν} {effects' : List (Effect ω)}
    (first : x.Leads store M effects y store') (second : y.Leads store' M effects' z last) :
    x.Leads store M (effects ++ effects') z last where
  does later := by
    rw [List.append_assoc]
    exact first.does (second.does later)
  hangs later := first.hangs (second.hangs later)

theorem leads_noted {step : Noted ω β} (ready : store.Ready M) :
    (noted step >>= f).Leads store M (noting step.notes) (f step.value) (store.log step.notes) where
  does := by
    rintro later value ⟨store', settles, undergoes, leaves⟩
    exact ⟨store', settles, Store.undergoes_noting.mpr undergoes,
      (leaves_log step.notes ready).trans leaves⟩
  hangs := id

/-- A loop is its first round, and behind it the loop again unless that round was the last one. -/
theorem leads_iterate {step : β → Lazy ω ν (β ⊕ α)} (start : β)
    (steady : ∀ state, (step state).Steady) :
    (iterate step start).Leads store M [] (step start >>= Sum.elim (iterate step) pure) store where
  does := by
    rintro later value ⟨store', ⟨enough, settles⟩, undergoes, leaves⟩
    refine ⟨store', ⟨enough + 1, fun fuel more => ?_⟩, undergoes, leaves⟩
    obtain ⟨left, rfl⟩ := Nat.exists_eq_succ_of_ne_zero (Nat.ne_zero_of_lt more)
    obtain ⟨r, store₁, stepped, behind⟩ :=
      bind_eq_some.mp (settles left (Nat.le_of_succ_le_succ more))
    have stepped := steady start left (left + 1) store _ (Nat.le_succ left) stepped
    simp only [iterate, iterate.go, stepped]
    cases r with
    | inl next => exact go_more steady (Nat.le_succ left) le_rfl behind
    | inr found => exact behind
  hangs hangs fuel := by
    cases fuel with
    | zero => rfl
    | succ left =>
      rw [iterate, iterate.go]
      cases stepped : step start (left + 1) store with
      | none => rfl
      | some first =>
        obtain ⟨r, store₁⟩ := first
        have behind : Sum.elim (iterate step) pure r (left + 1) store₁ = none := by
          have hangs := hangs (left + 1)
          simpa only [Bind.bind, stepped] using hangs
        cases r with
        | inl next =>
          -- with one round fewer left the loop comes back no more often
          cases came : iterate.go step (left + 1) left next store₁ with
          | none => exact came
          | some found =>
            cases behind.symm.trans (go_more steady le_rfl (Nat.le_succ left) came)
        | inr value => cases behind

end Leads

end Lazy

namespace Sequence

variable {s t q : Sequence ν} {cell : Cell ν} {cells : List (Cell ν)} {f : Sequence ν → Lazy ω ν α}

section Rest

theorem doesTo_rest (ready : store.Ready M) (has : store.Has (some cell))
    (follows : M.after cell.node = some q) :
    ∃ store', (rest (some cell)).DoesTo store M [.look cell.node] q store' ∧ store'.Has q := by
  obtain ⟨store', found⟩ := Store.rest_settles (ready.asking has) follows
  obtain ⟨leaves, has', -⟩ := after_of_rest ready has (found.choose_spec _ le_rfl)
  exact ⟨store', ⟨found, .look (has cell rfl).2 found .nil, leaves⟩, has'⟩

theorem leads_rest (ready : store.Ready M) (has : store.Has (some cell))
    (follows : M.after cell.node = some q) :
    ∃ store', store.Leaves M store' M ∧ store'.Has q ∧
      (rest (some cell) >>= f).Leads store M [.look cell.node] (f q) store' := by
  obtain ⟨store', looks, has'⟩ := doesTo_rest ready has follows
  exact ⟨store', looks.leaves, has', looks.leads steady_rest⟩

theorem hangs_rest (ready : store.Ready M) (has : store.Has (some cell))
    (stuck : M.after cell.node = none) : (rest (some cell) >>= f).Hangs store := by
  intro fuel
  cases came : rest (some cell) fuel store with
  | none => simp only [Bind.bind, came]
  | some answer => cases stuck.symm.trans (after_of_rest ready has came).2.2

end Rest

section DropWhile
variable {drop : ν → Noted ω Bool}

def testing (test : ν → Noted ω α) (cells : List (Cell ν)) : List (Effect ω) :=
  cells.flatMap fun cell => noting (test cell.value).notes ++ [.look cell.node]

theorem leads_dropWhile_cell (drop : ν → Noted ω Bool) (cell : Cell ν) (ready : store.Ready M) :
    (dropWhile (some cell) drop).Leads store M (noting (drop cell.value).notes)
      (if (drop cell.value).value then rest (some cell) >>= fun tail => tail.dropWhile drop
        else pure (some cell)) (store.log (drop cell.value).notes) := by
  have tests : (dropWhile (some cell) drop).Leads store M []
      (Lazy.noted (drop cell.value) >>= fun dropped =>
        if dropped then rest (some cell) >>= fun tail => tail.dropWhile drop
        else pure (some cell)) store := by
    refine Eq.mp (congrArg (Lazy.Leads _ _ _ _ · _) ?_)
      (Lazy.leads_iterate (some cell) (steady_drop drop))
    rw [bind_assoc]
    congr 1
    funext dropped
    cases dropped with
    | false => rfl
    | true => exact bind_assoc ..
  exact tests.trans (Lazy.leads_noted ready)

theorem leads_dropWhile (ready : store.Ready M) (has : store.Has s) (walks : M.Walks s cells t)
    (dropped : ∀ cell ∈ cells, (drop cell.value).value = true) :
    ∃ store', store.Leaves M store' M ∧ store'.Has t ∧
      (s.dropWhile drop).Leads store M (testing drop cells) (t.dropWhile drop) store' := by
  induction walks generalizing store with
  | nil => exact ⟨store, .refl ready, has, .refl⟩
  | @cons cell rest t cells follows tail ih =>
    have logged := Lazy.leaves_log (drop cell.value).notes ready
    have tests := leads_dropWhile_cell drop cell ready
    rw [if_pos (dropped cell List.mem_cons_self)] at tests
    obtain ⟨store₁, leaves₁, has₁, looks⟩ := leads_rest (f := fun tail => tail.dropWhile drop)
      logged.ready (logged.has has) follows
    obtain ⟨store₂, leaves₂, has₂, later⟩ :=
      ih leaves₁.ready has₁ fun cell inside => dropped cell (List.mem_cons_of_mem _ inside)
    exact ⟨store₂, (logged.trans leaves₁).trans leaves₂, has₂, (tests.trans looks).trans later⟩

/-- Dropping looks behind the elements dropped, and not behind the first one kept. -/
theorem does_dropWhile (ready : store.Ready M) (has : store.Has s)
    (walks : M.Walks s cells (some cell))
    (dropped : ∀ cell ∈ cells, (drop cell.value).value = true)
    (kept : (drop cell.value).value = false) :
    (s.dropWhile drop).Does store M (testing drop cells ++ noting (drop cell.value).notes)
      (some cell) := by
  obtain ⟨store', leaves, -, leads⟩ := leads_dropWhile ready has walks dropped
  have tests := leads_dropWhile_cell drop cell leaves.ready
  rw [kept] at tests
  have stops := tests.does (Lazy.does_pure (Lazy.leaves_log _ leaves.ready).ready)
  rw [List.append_nil] at stops
  exact leads.does stops

end DropWhile

section IterateWhile
variable {visit : α → ν → α × Bool} {left : Option Nat} {state last : α} {result : α}

inductive Visits (visit : α → ν → α × Bool) : α → List ν → α → Prop
  | nil {state : α} : Visits visit state [] state
  | cons {state next last : α} {value : ν} {values : List ν}
      (more : visit state value = (next, true))
      (later : Visits visit next values last) : Visits visit state (value :: values) last

def iterateBehind (visit : α → ν → α × Bool) (left : Option Nat) (state : α) (value : ν)
    (tail : Sequence ν) : Lazy ω ν α :=
  if (visit state value).2 then tail.iterateWhile (left.map (· - 1)) (visit state value).1 visit
  else pure (visit state value).1

theorem iterateBehind_more {next : α} {value : ν} {tail : Sequence ν}
    (more : visit state value = (next, true)) :
    (iterateBehind visit left state value tail : Lazy ω ν α) =
      tail.iterateWhile (left.map (· - 1)) next visit := by
  rw [iterateBehind, more, if_pos rfl]

theorem iterateBehind_last {value : ν} {tail : Sequence ν}
    (stop : visit state value = (result, false)) :
    (iterateBehind visit left state value tail : Lazy ω ν α) = pure result := by
  rw [iterateBehind, stop, if_neg Bool.false_ne_true]

theorem leads_iterateWhile_cell (more : left ≠ some 0) :
    (iterateWhile (some cell) left state visit).Leads store M []
      (rest (some cell) >>= iterateBehind visit left state cell.value) store := by
  refine Eq.mp (congrArg (Lazy.Leads _ _ _ _ · _) ?_)
    (Lazy.leads_iterate (state, left, some cell) (steady_visit visit))
  rcases left with _ | _ | left
  case some.zero => exact absurd rfl more
  all_goals
    refine (bind_assoc ..).trans (congrArg _ ?_)
    funext tail
    rw [pure_bind, iterateBehind]
    cases (visit state cell.value).2 <;> rfl

theorem does_iterateWhile_stop (ready : store.Ready M) (stop : left = some 0 ∨ s = none) :
    (s.iterateWhile left state visit).Does store M [] state := by
  have leads : Lazy.Leads _ store M _ _ _ :=
    Lazy.leads_iterate (state, left, s) (steady_visit visit)
  refine leads.does (Eq.mpr (congrArg (Lazy.Does · _ _ _ _) ?_) (Lazy.does_pure ready))
  rcases stop with rfl | rfl
  · rfl
  · rcases left with _ | _ | left <;> rfl

theorem leads_iterateWhile (left : Option Nat) (ready : store.Ready M) (has : store.Has s)
    (walks : M.Walks s cells t) (visits : Visits visit state (cells.map Cell.value) last)
    (few : ∀ count, left = some count → cells.length ≤ count) :
    ∃ store', store.Leaves M store' M ∧ store'.Has t ∧
      (s.iterateWhile left state visit).Leads store M (looking cells)
        (t.iterateWhile (left.map (· - cells.length)) last visit) store' := by
  induction walks generalizing store state left with
  | nil =>
    cases visits
    refine ⟨store, .refl ready, has, ?_⟩
    have same : left.map (· - ([] : List (Cell ν)).length) = left := by simp
    rw [same]
    exact .refl
  | @cons cell rest t cells follows tail ih =>
    cases visits with
    | @cons _ next _ _ _ more later =>
      have some_left : left ≠ some 0 := fun nothing => by simpa using few 0 nothing
      obtain ⟨store₁, leaves₁, has₁, looks⟩ :=
        leads_rest (f := iterateBehind visit left state cell.value) ready has follows
      have first := (leads_iterateWhile_cell some_left).trans looks
      rw [iterateBehind_more more] at first
      have fewer (count : Nat) (same : left.map (· - 1) = some count) : cells.length ≤ count := by
        obtain ⟨count', rfl, rfl⟩ := Option.map_eq_some_iff.mp same
        exact Nat.le_sub_one_of_lt (few count' rfl)
      obtain ⟨store₂, leaves₂, has₂, behind⟩ := ih _ leaves₁.ready has₁ later fewer
      have counted : (left.map (· - 1)).map (· - cells.length) =
          left.map (· - (cell :: cells).length) := by
        rw [Option.map_map]
        congr 1
        funext count
        simp only [Function.comp, List.length_cons]
        omega
      rw [counted] at behind
      exact ⟨store₂, leaves₁.trans leaves₂, has₂, first.trans behind⟩

section Last
variable (ready : store.Ready M) (has : store.Has s) (walks : M.Walks s cells (some cell))
  (visits : Visits visit state (cells.map Cell.value) last)
  (few : ∀ count, left = some count → cells.length < count)
include ready has walks visits few

theorem leads_iterateWhile_last :
    ∃ store', store.Leaves M store' M ∧ store'.Has (some cell) ∧
      (s.iterateWhile left state visit).Leads store M (looking cells)
        (rest (some cell) >>= iterateBehind visit (left.map (· - cells.length)) last cell.value)
        store' := by
  obtain ⟨store', leaves, has', leads⟩ :=
    leads_iterateWhile left ready has walks visits fun count same => (few count same).le
  have more : left.map (· - cells.length) ≠ some 0 := by
    intro nothing
    obtain ⟨count, rfl, gone⟩ := Option.map_eq_some_iff.mp nothing
    exact Nat.sub_ne_zero_of_lt (few count rfl) gone
  have unrolled := leads.trans (leads_iterateWhile_cell more)
  rw [List.append_nil] at unrolled
  exact ⟨store', leaves, has', unrolled⟩

theorem does_iterateWhile_last (stop : visit last cell.value = (result, false))
    (follows : M.after cell.node = some q) :
    (s.iterateWhile left state visit).Does store M (looking (cells ++ [cell])) result := by
  obtain ⟨store', leaves, has', leads⟩ :=
    leads_iterateWhile_last ready has walks visits few
  obtain ⟨store₁, leaves₁, -, looks⟩ := leads_rest
    (f := iterateBehind visit (left.map (· - cells.length)) last cell.value)
    leaves.ready has' follows
  have reached := leads.trans looks
  rw [iterateBehind_last stop] at reached
  have does := reached.does (Lazy.does_pure leaves₁.ready)
  rw [List.append_nil] at does
  rw [looking_append]
  exact does

theorem hangs_iterateWhile (stuck : M.after cell.node = none) :
    (s.iterateWhile left state visit).Hangs store := by
  obtain ⟨store', leaves, has', leads⟩ := leads_iterateWhile_last ready has walks visits few
  exact leads.hangs (hangs_rest leaves.ready has' stuck)

end Last

theorem visits_push (items : Array ν) (values : List ν) :
    Visits (fun items value => (items.push value, true)) items values
      (items ++ values.toArray) := by
  induction values generalizing items with
  | nil => simpa using Visits.nil
  | cons value values ih =>
    have same : items ++ (value :: values).toArray = items.push value ++ values.toArray := by simp
    rw [same]
    exact .cons rfl (ih _)

/-- An iterator looks behind every element that it hands out, the last one too. -/
theorem does_iterTake {count : Nat} (ready : store.Ready M) (has : store.Has s)
    (walks : M.Walks s cells t)
    (stop : cells.length = count ∨ cells.length < count ∧ t = none) :
    (s.iterTake count : Lazy ω ν (List ν)).Does store M (looking cells) (cells.map Cell.value) := by
  have few : cells.length ≤ count := stop.elim Nat.le_of_eq fun fewer => fewer.1.le
  obtain ⟨store', leaves, -, leads⟩ := leads_iterateWhile (some count) ready has walks
    (visits_push #[] _) fun count' same => Option.some_inj.mp same ▸ few
  have ended : (some count).map (· - cells.length) = some 0 ∨ t = none := by
    rcases stop with rfl | ⟨-, ended⟩
    · exact Or.inl (congrArg some (Nat.sub_self _))
    · exact Or.inr ended
  have does := (leads.does (does_iterateWhile_stop leaves.ready ended)).map (g := Array.toList)
  simp only [List.append_nil, Array.empty_append] at does
  exact does

theorem hangs_iterTake {count : Nat} (ready : store.Ready M) (has : store.Has s)
    (walks : M.Walks s cells (some cell)) (more : cells.length < count)
    (stuck : M.after cell.node = none) : (s.iterTake count : Lazy ω ν (List ν)).Hangs store :=
  have few (count' : Nat) (same : some count = some count') : cells.length < count' :=
    Option.some_inj.mp same ▸ more
  (hangs_iterateWhile ready has walks (visits_push #[] _) few stuck).map

end IterateWhile

section Equal
variable {same : ν → ν → Bool} {a b : Cell ν} {xs ys : List (Cell ν)} {answer : Bool}
  {s' t' : Sequence ν}

/-- What a comparison can tell from where two sequences begin, if it can tell anything yet. -/
def verdict (same : ν → ν → Bool) : Sequence ν → Sequence ν → Option Bool
  | none, none => some true
  | some a, some b =>
    if a.node = b.node then some true else if same a.value b.value then none else some false
  | _, _ => some false

def lookingBoth (xs ys : List (Cell ν)) : List (Effect ω) :=
  (xs.zip ys).flatMap fun cells => [.look cells.1.node, .look cells.2.node]

theorem steady_compare (same : ν → ν → Bool) (both : Sequence ν × Sequence ν) :
    Lazy.Steady (match both.1, both.2 with
    | none, none => (pure (.inr true) : Lazy ω ν ((Sequence ν × Sequence ν) ⊕ Bool))
    | some left, some right =>
      if left.node = right.node then pure (.inr true)
      else if !same left.value right.value then pure (.inr false)
      else do
        let s ← rest (some left)
        let t ← rest (some right)
        pure (.inl (s, t))
    | _, _ => pure (.inr false)) := by
  obtain ⟨_ | left, _ | right⟩ := both
  case some.some =>
    dsimp only
    split_ifs
    · exact Lazy.steady_pure
    · exact Lazy.steady_pure
    · exact steady_rest.bind fun _ => steady_rest.bind fun _ => Lazy.steady_pure
  all_goals exact Lazy.steady_pure

theorem leads_equal_cells (pass : verdict same (some a) (some b) = none) :
    (equal same (some a) (some b)).Leads store M []
      (rest (some a) >>= fun s => rest (some b) >>= fun t => s.equal same t) store := by
  refine Eq.mp (congrArg (Lazy.Leads _ _ _ _ · _) ?_)
    (Lazy.leads_iterate (some a, some b) (steady_compare same))
  simp only [verdict] at pass
  split_ifs at pass with one matched
  simp only [if_neg one, matched, Bool.not_true, Bool.false_eq_true, if_false, bind_assoc,
    pure_bind]
  rfl

theorem does_equal_stop (ready : store.Ready M) (stop : verdict same s t = some answer) :
    (s.equal same t).Does store M [] answer := by
  have leads : Lazy.Leads _ store M _ _ _ := Lazy.leads_iterate (s, t) (steady_compare same)
  refine leads.does (Eq.mpr (congrArg (Lazy.Does · _ _ _ _) ?_) (Lazy.does_pure ready))
  rcases s with _ | a <;> rcases t with _ | b
  case some.some =>
    simp only [verdict] at stop
    split_ifs at stop with one matched
    · cases stop
      simp only [if_pos one, pure_bind]
      rfl
    · cases stop
      simp only [if_neg one, matched, Bool.not_false, if_true, pure_bind]
      rfl
  all_goals
    cases stop
    rfl

theorem leads_equal (ready : store.Ready M) (has : store.Has s) (has' : store.Has t)
    (left : M.Walks s xs s') (right : M.Walks t ys t')
    (level : List.Forall₂ (fun a b => verdict same (some a) (some b) = none) xs ys) :
    ∃ store', store.Leaves M store' M ∧ store'.Has s' ∧ store'.Has t' ∧
      (s.equal same t).Leads store M (lookingBoth xs ys) (s'.equal same t') store' := by
  induction level generalizing store s t with
  | nil =>
    cases left
    cases right
    exact ⟨store, .refl ready, has, has', .refl⟩
  | @cons a b xs ys pass level ih =>
    cases left with
    | @cons _ s₁ _ _ follows left =>
      cases right with
      | cons follows' right =>
        obtain ⟨store₁, leaves₁, first, looks⟩ := leads_rest (f := fun s =>
          rest (some b) >>= fun t => s.equal same t) ready has follows
        obtain ⟨store₂, leaves₂, second, looks'⟩ := leads_rest (f := fun t => s₁.equal same t)
          leaves₁.ready (leaves₁.has has') follows'
        obtain ⟨store₃, leaves₃, has₃, has₃', later⟩ :=
          ih leaves₂.ready (leaves₂.has first) second left right
        exact ⟨store₃, (leaves₁.trans leaves₂).trans leaves₃, has₃, has₃',
          (((leads_equal_cells pass).trans looks).trans looks').trans later⟩

/-- A comparison looks behind the elements that it has found equal, and no further. -/
theorem does_equal (ready : store.Ready M) (has : store.Has s) (has' : store.Has t)
    (left : M.Walks s xs s') (right : M.Walks t ys t')
    (level : List.Forall₂ (fun a b => verdict same (some a) (some b) = none) xs ys)
    (stop : verdict same s' t' = some answer) :
    (s.equal same t).Does store M (lookingBoth xs ys) answer := by
  obtain ⟨store', leaves, -, -, leads⟩ := leads_equal ready has has' left right level
  have does := leads.does (does_equal_stop leaves.ready stop)
  rwa [List.append_nil] at does

end Equal

end Sequence

end DemandLex
