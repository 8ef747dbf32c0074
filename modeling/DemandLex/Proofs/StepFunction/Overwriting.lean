import DemandLex.Proofs.Program.Operators
import DemandLex.Proofs.StepFunction.Canonical
import DemandLex.Proofs.StepFunction.Endless
import DemandLex.Proofs.StepFunction.History
import DemandLex.Proofs.StepFunction.Pointwise

/-! Intervals added one after the other: at every key the last one that covers it decides. -/

namespace DemandLex

namespace StepFunction

variable {E T : Type} {compare : E → E → Ordering} {equal : T → T → Bool}
  {f : StepFunction E T} {i j : Interval E T} {intervals later : List (Interval E T)} {key : E}

def covers (compare : E → E → Ordering) (key : E) (interval : Interval E T) : Bool :=
  compare interval.min key != .gt && compare interval.max key == .gt

def lastCovering (compare : E → E → Ordering) (key : E) (intervals : List (Interval E T)) :
    Option T :=
  (intervals.reverse.find? (covers compare key)).map Interval.value

def addAll (strategy : Strategy E T) (s : StepFunction E T) (intervals : List (Interval E T)) :
    StepFunction E T :=
  intervals.foldl (add strategy) s

def Apart (compare : E → E → Ordering) (i j : Interval E T) : Prop :=
  ∀ key, covers compare key i = true → covers compare key j = false

theorem lastCovering_cons : lastCovering compare key (i :: intervals) =
    (lastCovering compare key intervals).or
      (if covers compare key i then some i.value else none) := by
  rw [lastCovering, lastCovering, List.reverse_cons, List.find?_append, Option.map_or]
  congr 1
  rw [List.find?_singleton]
  split <;> rfl

theorem covers_empty [Std.TransCmp compare] (empty : compare i.min i.max ≠ .lt) :
    covers compare key i = false := by
  rw [Bool.eq_false_iff]
  intro inside
  simp only [covers, Bool.and_eq_true, bne_iff_ne, beq_iff_eq] at inside
  exact empty (Std.TransCmp.lt_of_isLE_of_lt (Ordering.isLE_iff_ne_gt.mpr inside.1)
    (Std.OrientedCmp.lt_of_gt inside.2))

section Edges
variable [Std.TransCmp compare] {A B R : Type} {reduce : A → B → R} {a : A} {b : B}
  {xs : List (Breakpoint E A)} {ys : List (Breakpoint E B)}

private theorem edge_cons {w : Breakpoint E A} {value : R} {zs : List (Breakpoint E R)}
    (behind : ∀ x ∈ xs, compare w.edge x.edge = .lt)
    (passed : ∀ z ∈ zs, compare w.edge z.edge = .lt)
    (later : ∀ z ∈ zs, ∀ x ∈ xs, compare x.edge z.edge = .eq → z.edge = x.edge) :
    ∀ z ∈ (⟨w.edge, value⟩ : Breakpoint E R) :: zs, ∀ x ∈ w :: xs,
      compare x.edge z.edge = .eq → z.edge = x.edge := by
  intro z member x inside same
  rcases List.mem_cons.mp member with rfl | last <;> rcases List.mem_cons.mp inside with rfl | rest
  · rfl
  · have before := behind x rest
    rw [Std.OrientedCmp.eq_symm same] at before
    cases before
  · have before := passed z last
    rw [same] at before
    cases before
  · exact later z last x rest same

theorem edge_overlay (left : Increasing compare xs) (right : Increasing compare ys) :
    ∀ z ∈ overlay compare reduce a b xs ys, ∀ x ∈ xs, compare x.edge z.edge = .eq →
      z.edge = x.edge := by
  fun_induction overlay compare reduce a b xs ys with
  | case1 | case3 => simp
  | case2 a b x xs ih =>
    obtain ⟨behind, rest⟩ := increasing_cons.mp left
    exact edge_cons behind (before_overlay behind (by simp)) (ih rest right)
  | case4 a b x xs y ys order ih =>
    obtain ⟨behind, rest⟩ := increasing_cons.mp left
    exact edge_cons behind (before_overlay behind (right.before order)) (ih rest right)
  | case5 a b x xs y ys order ih =>
    obtain ⟨behind, rest⟩ := increasing_cons.mp left
    obtain ⟨behind', rest'⟩ := increasing_cons.mp right
    exact edge_cons behind (before_overlay behind fun w inside =>
      Std.TransCmp.lt_of_eq_of_lt order (behind' w inside)) (ih rest rest')
  | case6 a b x xs y ys order ih =>
    intro z member w inside same
    rcases List.mem_cons.mp member with rfl | member
    · have before := left.before (Std.OrientedCmp.lt_of_gt order) w inside
      rw [Std.OrientedCmp.eq_symm same] at before
      cases before
    · exact ih left (increasing_cons.mp right).2 z member w inside same

theorem breakpoints_of_sameSteps {equal : R → R → Bool} {f : StepFunction E R}
    {g : StepFunction E B} {reduce : R → B → R} (left : Increasing compare f.breakpoints)
    (right : Increasing compare g.breakpoints)
    (same : SameSteps compare f.breakpoints (f.merge ⟨compare, equal⟩ reduce g).breakpoints) :
    f.breakpoints = (f.merge ⟨compare, equal⟩ reduce g).breakpoints := by
  have kept : ∀ z ∈ (f.merge ⟨compare, equal⟩ reduce g).breakpoints, ∀ x ∈ f.breakpoints,
      compare x.edge z.edge = .eq → z.edge = x.edge := fun z member =>
    edge_overlay left right z (minimise_sublist.subset member)
  generalize (f.merge ⟨compare, equal⟩ reduce g).breakpoints = zs at same kept
  generalize f.breakpoints = xs at same kept
  induction same with
  | nil => rfl
  | @cons x z xs zs first later ih =>
    obtain ⟨edge, value⟩ := x
    obtain ⟨edge', value'⟩ := z
    obtain ⟨together, rfl⟩ := first
    cases kept _ List.mem_cons_self _ List.mem_cons_self together
    rw [ih fun z member x inside =>
      kept z (List.mem_cons_of_mem _ member) x (List.mem_cons_of_mem _ inside)]

end Edges

section Lookup
variable [Std.TransCmp compare]

theorem get_add (exact : ∀ x y, equal x y = true → x = y)
    (increasing : Increasing compare f.breakpoints) :
    (f.add ⟨compare, equal⟩ i).get compare key =
      if covers compare key i then i.value else f.get compare key := by
  rw [get_add_of_exact key exact increasing]
  simp only [covers, Bool.and_eq_true, bne_iff_ne, beq_iff_eq]

/-- Every add overwrites what the adds before it have left. -/
theorem get_addAll (exact : ∀ x y, equal x y = true → x = y)
    (increasing : Increasing compare f.breakpoints) :
    (f.addAll ⟨compare, equal⟩ intervals).get compare key =
      (lastCovering compare key intervals).getD (f.get compare key) := by
  induction intervals generalizing f with
  | nil => rfl
  | cons i later ih =>
    have rest : (f.addAll ⟨compare, equal⟩ (i :: later)).get compare key =
        (lastCovering compare key later).getD
          ((f.add ⟨compare, equal⟩ i).get compare key) := ih (increasing_add increasing)
    rw [rest, get_add exact increasing, lastCovering_cons]
    cases lastCovering compare key later with
    | some value => rfl
    | none =>
      cases inside : covers compare key i <;> rfl

omit [Std.TransCmp compare] in
theorem first_addAll : (f.addAll ⟨compare, equal⟩ intervals).first = f.first := by
  induction intervals generalizing f with
  | nil => rfl
  | cons i later ih => exact ih.trans first_add

theorem sameSteps_add_add (exact : ∀ x y, equal x y = true ↔ x = y)
    (formed : WellFormed compare equal f) (apart : Apart compare i j) :
    SameSteps compare ((f.add ⟨compare, equal⟩ i).add ⟨compare, equal⟩ j).breakpoints
      ((f.add ⟨compare, equal⟩ j).add ⟨compare, equal⟩ i).breakpoints := by
  have values (x y : T) : equal x y = true → x = y := (exact x y).mp
  refine sameSteps_of_get (fun x => (exact x x).mpr rfl) formed.add.add formed.add.add ?_ ?_
  · simp only [first_add]
  · intro key
    rw [get_add values formed.add.increasing, get_add values formed.increasing,
      get_add values formed.add.increasing, get_add values formed.increasing]
    cases inside : covers compare key i with
    | true => simp [apart key inside]
    | false => simp

theorem add_add_self (exact : ∀ x y, equal x y = true ↔ x = y)
    (formed : WellFormed compare equal f) :
    (f.add ⟨compare, equal⟩ i).add ⟨compare, equal⟩ i = f.add ⟨compare, equal⟩ i := by
  by_cases nonempty : compare i.min i.max = .lt
  · have values (x y : T) : equal x y = true → x = y := (exact x y).mp
    have first : ((f.add ⟨compare, equal⟩ i).add ⟨compare, equal⟩ i).first =
        (f.add ⟨compare, equal⟩ i).first := first_add
    have same : SameSteps compare (f.add ⟨compare, equal⟩ i).breakpoints
        ((f.add ⟨compare, equal⟩ i).add ⟨compare, equal⟩ i).breakpoints := by
      refine sameSteps_of_get (fun x => (exact x x).mpr rfl) formed.add formed.add.add first.symm ?_
      intro key
      rw [get_add values formed.add.increasing, get_add values formed.increasing]
      cases covers compare key i <;> rfl
    have breakpoints : (f.add ⟨compare, equal⟩ i).breakpoints =
        ((f.add ⟨compare, equal⟩ i).add ⟨compare, equal⟩ i).breakpoints := by
      rw [add_nonempty nonempty (f := f.add ⟨compare, equal⟩ i)] at same ⊢
      exact breakpoints_of_sameSteps formed.add.increasing (increasing_patch nonempty) same
    exact eq_of_parts first breakpoints.symm
  · rw [add_empty nonempty, add_empty nonempty]

end Lookup

end StepFunction

namespace Listing

variable {E T : Type} {compare : E → E → Ordering} {equal : T → T → Bool} {first : T}
  {l l' : Listing (Breakpoint E T)} {i : Interval E T} {intervals : List (Interval E T)}

def add (compare : E → E → Ordering) (equal : T → T → Bool) (first : T)
    (l : Listing (Breakpoint E T)) (i : Interval E T) : Listing (Breakpoint E T) :=
  match compare i.min i.max with
  | .lt => merge compare equal (fun old new => new.getD old) first none l
      (whole (StepFunction.patch i).breakpoints)
  | _ => l

def addAll (compare : E → E → Ordering) (equal : T → T → Bool) (first : T)
    (l : Listing (Breakpoint E T)) (intervals : List (Interval E T)) : Listing (Breakpoint E T) :=
  intervals.foldl (add compare equal first) l

theorem add_le (le : l ≤ l') : add compare equal first l i ≤ add compare equal first l' i := by
  rw [add, add]
  split
  · exact merge_le le le_rfl
  · exact le

theorem isHeaded_of_add (headed : (add compare equal first l i).isHeaded = true) :
    l.isHeaded = true := by
  rw [add] at headed
  split at headed
  · exact (isHeaded_of_merge headed).1
  · exact headed

theorem addAll_le (le : l ≤ l') :
    addAll compare equal first l intervals ≤ addAll compare equal first l' intervals := by
  induction intervals generalizing l l' with
  | nil => exact le
  | cons i later ih => exact ih (add_le le)

theorem isHeaded_of_addAll (headed : (addAll compare equal first l intervals).isHeaded = true) :
    l.isHeaded = true := by
  induction intervals generalizing l with
  | nil => exact headed
  | cons i later ih => exact isHeaded_of_add (ih headed)

theorem add_whole {f : StepFunction E T} :
    add compare equal f.first (whole f.breakpoints) i =
      whole (f.add ⟨compare, equal⟩ i).breakpoints := by
  rw [add, StepFunction.add]
  cases order : compare i.min i.max with
  | lt =>
    simp only [order]
    exact merge_whole (g := StepFunction.patch i)
  | eq | gt => simp only [order]

theorem addAll_whole {f : StepFunction E T} :
    addAll compare equal f.first (whole f.breakpoints) intervals =
      whole (f.addAll ⟨compare, equal⟩ intervals).breakpoints := by
  induction intervals generalizing f with
  | nil => rfl
  | cons i later ih =>
    have step : addAll compare equal f.first (whole f.breakpoints) (i :: later) =
        addAll compare equal (f.add ⟨compare, equal⟩ i).first
          (whole (f.add ⟨compare, equal⟩ i).breakpoints) later := by
      rw [← add_whole, StepFunction.first_add]
      rfl
    exact step.trans ih

/-- Histories that make the same of every beginning go on alike, as far as each of them goes on. -/
theorem compatible_addAll {c : Nat → Listing (Breakpoint E T)} {others : List (Interval E T)}
    (mono : Monotone c)
    (same : ∀ n, (StepFunction.addAll ⟨compare, equal⟩ ⟨first, (c n).known⟩ intervals).breakpoints =
      (StepFunction.addAll ⟨compare, equal⟩ ⟨first, (c n).known⟩ others).breakpoints) :
    Compatible (fun n => addAll compare equal first (c n) intervals)
      fun n => addAll compare equal first (c n) others := by
  intro n m
  let f : StepFunction E T := ⟨first, (c (max n m)).known⟩
  refine ⟨whole (f.addAll ⟨compare, equal⟩ intervals).breakpoints, ?_, ?_⟩
  · rw [← addAll_whole]
    exact addAll_le ((mono (le_max_left n m)).trans (le_whole _))
  · rw [same, ← addAll_whole]
    exact addAll_le ((mono (le_max_right n m)).trans (le_whole _))

end Listing

namespace StepStream

variable {ω E T : Type} {s : StepStream E T} {f : StepFunction E T}
  {store store' : Store ω (Breakpoint E T)} {M : Meaning (Breakpoint E T)}
  {compare : E → E → Ordering} {equal : T → T → Noted ω Bool} {first value : T} {key : E}
  {c : Nat → Listing (Breakpoint E T)} {intervals : List (Interval E T)}

def addAll (compare : E → E → Ordering) (equal : T → T → Noted ω Bool) (s : StepStream E T)
    (intervals : List (Interval E T)) : Lazy ω (Breakpoint E T) (StepStream E T) :=
  intervals.foldlM (add compare equal) s

theorem returns_addAll (ready : store.Ready M) (shows : s.Shows f store M) :
    (s.addAll compare equal intervals).Returns store M fun t store' M' =>
      t.Shows (f.addAll ⟨compare, silent equal⟩ intervals) store' M' := by
  induction intervals generalizing s f store M with
  | nil => exact Lazy.returns_pure ready shows
  | cons i later ih =>
    rw [addAll, List.foldlM_cons]
    apply (returns_add ready shows).bind
    intro t store' M' leaves shows'
    exact ih leaves.ready shows'

theorem makes_add {i : Interval E T} (ready : store.Ready M) (known : s.Known first c store M) :
    Makes (s.add compare equal i) store M first fun n =>
      Listing.add compare (silent equal) first (c n) i := by
  rw [add]
  simp only [Listing.add]
  cases compare i.min i.max with
  | lt =>
    exact makes_merge (q := Producer.ofList (StepFunction.patch i).breakpoints) ready known
      (Producer.grounded_of_alone Producer.alone_unfold) (Program.sameLimit_ofList _)
  | eq | gt => exact makes_pure ready known

theorem makes_addAll (ready : store.Ready M) (known : s.Known first c store M) :
    Makes (s.addAll compare equal intervals) store M first fun n =>
      Listing.addAll compare (silent equal) first (c n) intervals := by
  induction intervals generalizing s c store M with
  | nil => exact makes_pure ready known
  | cons i later ih =>
    rw [addAll, List.foldlM_cons]
    refine (makes_add ready known).bind ?_ fun n headed => Listing.isHeaded_of_addAll headed
    intro t store' M' leaves known'
    exact ih leaves.ready known'

theorem lookup?_of_get {fuel : Nat} (ready : store.Ready M) (has : store.Has s.rest)
    (result : s.get compare key fuel store = some (value, store')) :
    ∃ n, Listing.lookup? compare key s.first (M.shown n s.rest) = some value := by
  refine Lazy.post_of_iterate (I := fun (found, left, t) store' => store'.Ready M ∧ store'.Has t ∧
    left = none ∧ ∀ value, (∃ n, Listing.lookup? compare key found (M.shown n t) = some value) →
      ∃ n, Listing.lookup? compare key s.first (M.shown n s.rest) = some value)
    (P := fun value _ => ∃ n, Listing.lookup? compare key s.first (M.shown n s.rest) = some value)
    ?_ ⟨ready, has, rfl, fun _ => id⟩ result
  rintro ⟨found, left, t⟩ store₁ r store₂ ⟨ready, has, rfl, back⟩ step
  cases t with
  | none =>
    cases step
    exact back _ ⟨1, rfl⟩
  | some cell =>
    obtain ⟨next, store₃, looked, same⟩ := Lazy.bind_eq_some.mp step
    obtain ⟨leaves, has', follows⟩ := Sequence.after_of_rest ready has looked
    cases order : compare cell.value.edge key with
    | gt =>
      simp only [order] at same
      cases same
      exact back _ ⟨1, Listing.lookup?_cons_after order⟩
    | lt | eq =>
      simp only [order] at same
      cases same
      refine ⟨leaves.ready, has', rfl, ?_⟩
      rintro value ⟨n, known⟩
      refine back value ⟨n + 1, ?_⟩
      rw [Meaning.shown, follows, Option.elim_some,
        Listing.lookup?_cons_passed (by simp [order])]
      exact known

/-- Whatever has become known of the stream, a look-up after the adds that comes back has found what
it finds after adding to that part. -/
theorem get_of_addAll [Std.TransCmp compare] {fuel : Nat}
    (exact : ∀ x y, silent equal x y = true → x = y) (ready : store.Ready M)
    (has : store.Has s.rest)
    (increasing : ∀ xs, M.Begins s.rest xs → StepFunction.Increasing compare xs)
    (result : (do
      let t ← s.addAll compare equal intervals
      t.get compare key) fuel store = some (value, store')) :
    ∃ n, ∀ m, n ≤ m → value = (StepFunction.lastCovering compare key intervals).getD
      (StepFunction.valueFrom compare key s.first (M.shown m s.rest).known) := by
  obtain ⟨t, store₁, added, got⟩ := Lazy.bind_eq_some.mp result
  obtain ⟨M', leaves, first, rest⟩ :=
    (makes_addAll ready (known_shown has)).came fuel t store₁ added
  obtain ⟨k, found⟩ := lookup?_of_get leaves.ready rest.has got
  rw [first] at found
  obtain ⟨n, le⟩ := (rest.denotes.le k).exists
  refine ⟨n, fun m later => ?_⟩
  let f : StepFunction E T := ⟨s.first, (M.shown m s.rest).known⟩
  have above : Listing.addAll compare (silent equal) s.first (M.shown n s.rest) intervals ≤
      Listing.whole (f.addAll ⟨compare, silent equal⟩ intervals).breakpoints := by
    rw [← Listing.addAll_whole]
    exact Listing.addAll_le ((Meaning.shown_mono later).trans (Listing.le_whole _))
  have whole := Listing.lookup?_of_le (le.trans above) found
  have same : (f.addAll ⟨compare, silent equal⟩ intervals).get compare key = value := by
    rw [Listing.lookup?_whole] at whole
    rw [StepFunction.get, StepFunction.first_addAll]
    exact Option.some_inj.mp whole
  rw [← same, StepFunction.get_addAll exact (increasing _ Meaning.begins_shown)]
  rfl

end StepStream

namespace StepFunction

/-- After any history of adds a look-up finds the value of the last interval that covers the key, or
else what was there before, and an interval without keys changes nothing. Adding an interval once
more changes nothing, and intervals without a common key may be added in either order: the same
breakpoints come out, up to keys that compare equal. Adding to a stream makes what adding to its
breakpoints makes, and of streams without an end all this holds as far as the look-ups and the
breakpoints come back. -/
theorem add_overwrites {E : Type} (compare : E → E → Ordering) [Std.TransCmp compare] :
    (∀ (T : Type) (equal : T → T → Bool) (f : StepFunction E T) (intervals : List (Interval E T))
      (key : E), (∀ x y, equal x y = true ↔ x = y) → Increasing compare f.breakpoints →
      (f.addAll ⟨compare, equal⟩ intervals).get compare key =
        (lastCovering compare key intervals).getD (f.get compare key)) ∧
    (∀ (T : Type) (equal : T → T → Bool) (f : StepFunction E T) (i : Interval E T),
      compare i.min i.max ≠ .lt → f.add ⟨compare, equal⟩ i = f ∧
        ∀ key, covers compare key i = false) ∧
    (∀ (T : Type) (equal : T → T → Bool) (f : StepFunction E T) (i j : Interval E T),
      (∀ x y, equal x y = true ↔ x = y) → WellFormed compare equal f →
      let add (f : StepFunction E T) (i : Interval E T) := f.add ⟨compare, equal⟩ i
      add (add f i) i = add f i ∧
      (Apart compare i j → SameSteps compare (add (add f i) j).breakpoints
          (add (add f j) i).breakpoints ∧
        (Std.LawfulEqCmp compare → add (add f i) j = add (add f j) i))) ∧
    ∀ (ω T : Type) (equal : T → T → Noted ω Bool) (s : StepStream E T)
      (store : Store ω (Breakpoint E T)) (M : Meaning (Breakpoint E T)),
      (∀ x y, silent equal x y = true ↔ x = y) → store.Ready M → store.Has s.rest →
      (∀ f intervals, s.Shows f store M →
        (s.addAll compare equal intervals).Returns store M fun t store' M' =>
          t.Shows (f.addAll ⟨compare, silent equal⟩ intervals) store' M') ∧
      ((∀ xs, M.Begins s.rest xs → Increasing compare xs) →
        ∀ intervals key fuel value last,
          (do
            let t ← s.addAll compare equal intervals
            t.get compare key) fuel store = some (value, last) →
          (∀ new, lastCovering compare key intervals = some new → value = new) ∧
          (lastCovering compare key intervals = none → ∀ fuel' old last',
            s.get compare key fuel' store = some (old, last') → value = old)) ∧
      ((∀ xs, M.Begins s.rest xs → WellFormed compare (silent equal) ⟨s.first, xs⟩) →
        ∀ i j, ∃ once twice left right,
          StepStream.Makes (s.addAll compare equal [i]) store M s.first once ∧
          StepStream.Makes (s.addAll compare equal [i, i]) store M s.first twice ∧
          StepStream.Makes (s.addAll compare equal [i, j]) store M s.first left ∧
          StepStream.Makes (s.addAll compare equal [j, i]) store M s.first right ∧
          Listing.Compatible once twice ∧
          (Std.LawfulEqCmp compare → Apart compare i j → Listing.Compatible left right)) := by
  refine ⟨?_, fun T equal f i empty => ⟨add_empty empty, fun key => covers_empty empty⟩, ?_, ?_⟩
  · intro T equal f intervals key exact increasing
    exact get_addAll (fun x y => (exact x y).mp) increasing
  · intro T equal f i j exact formed add
    refine ⟨add_add_self exact formed, fun apart => ?_⟩
    have same := sameSteps_add_add exact formed apart
    exact ⟨same, fun _ => eq_of_parts (by simp only [add, first_add]) same.eq⟩
  · intro ω T equal s store M exact ready has
    refine ⟨fun f intervals shows => StepStream.returns_addAll ready shows, ?_, ?_⟩
    · intro increasing intervals key fuel value last result
      obtain ⟨n, found⟩ := StepStream.get_of_addAll (fun x y => (exact x y).mp) ready has increasing
        result
      constructor
      · intro new covered
        rw [found n le_rfl, covered]
        rfl
      · intro uncovered fuel' old last' looked
        obtain ⟨k, known⟩ := StepStream.lookup?_of_get ready has looked
        have whole := Listing.lookup?_of_le
          ((Meaning.shown_mono (Nat.le_max_right n k)).trans (Listing.le_whole _)) known
        rw [found (max n k) (Nat.le_max_left n k), uncovered]
        exact Option.some_inj.mp whole
    · intro formed i j
      have known := StepStream.known_shown (M := M) has
      refine ⟨_, _, _, _, StepStream.makes_addAll ready known, StepStream.makes_addAll ready known,
        StepStream.makes_addAll ready known, StepStream.makes_addAll ready known,
        Listing.compatible_addAll Meaning.shown_mono ?_, fun lawful apart =>
          Listing.compatible_addAll Meaning.shown_mono ?_⟩
      · intro n
        exact (congrArg StepFunction.breakpoints
          (add_add_self exact (formed _ Meaning.begins_shown))).symm
      · intro n
        exact (sameSteps_add_add exact (formed _ Meaning.begins_shown) apart).eq

def readAdded (key : Nat) : Lazy String (Breakpoint Nat Nat) (Sequence (Breakpoint Nat Nat) × Nat) := do
  let rest ← (halves String (Breakpoint Nat Nat)).share
  let t ← StepStream.addAll compare (fun x y => pure (x == y)) ⟨0, rest⟩ [⟨2, 5, 70⟩, ⟨3, 9, 80⟩]
  let value ← t.get compare key
  pure (rest, value)

theorem readAdded_four :
    ∃ (rest : Sequence (Breakpoint Nat Nat)) (store last : Store String (Breakpoint Nat Nat))
      (M : Meaning (Breakpoint Nat Nat)) (fuel : Nat), store.Ready M ∧ store.Has rest ∧
      (∀ xs, M.Begins rest xs → Increasing compare xs) ∧
      (do
        let t ← StepStream.addAll compare (fun x y => pure (x == y)) ⟨0, rest⟩
          [⟨2, 5, 70⟩, ⟨3, 9, 80⟩]
        t.get compare 4) fuel store = some (80, last) := by
  have run : (readAdded 4 40 Store.empty).map (fun r => r.1.2) = some 80 := by decide +kernel
  obtain ⟨⟨⟨rest, value⟩, last⟩, ran, rfl⟩ := Option.map_eq_some_iff.mp run
  generalize 40 = fuel at ran
  rw [readAdded] at ran
  obtain ⟨rest', store, made, ran⟩ := Lazy.bind_eq_some.mp ran
  obtain ⟨t, store', added, ran⟩ := Lazy.bind_eq_some.mp ran
  obtain ⟨value', last', looked, same⟩ := Lazy.bind_eq_some.mp ran
  cases same
  have shared := Producer.shared_of_eq_some Store.ready_empty (Producer.shareable_of_grounded
    (Producer.grounded_of_alone Producer.alone_unfold)) made
  refine ⟨rest, store, last, _, fuel, shared.leaves.ready, shared.has, ?_,
    Lazy.bind_eq_some.mpr ⟨t, store', added, looked⟩⟩
  intro xs begins
  obtain ⟨final, starts⟩ := shared.begins xs rfl begins
  exact (increasing_halves starts).1

theorem add_overwrites_nested :
    let equal (x y : Nat) : Bool := x == y
    let f : StepFunction Nat Nat := ⟨0, [⟨2, 7⟩, ⟨5, 0⟩]⟩
    (f.addAll ⟨compare, equal⟩ [⟨1, 9, 3⟩, ⟨6, 4, 8⟩, ⟨4, 6, 5⟩]).get compare 5 = 5 ∧
    f.add ⟨compare, equal⟩ ⟨6, 4, 8⟩ = f ∧
    (f.add ⟨compare, equal⟩ ⟨1, 3, 8⟩).add ⟨compare, equal⟩ ⟨3, 5, 0⟩ =
      (f.add ⟨compare, equal⟩ ⟨3, 5, 0⟩).add ⟨compare, equal⟩ ⟨1, 3, 8⟩ ∧
    (∃ (rest : Sequence (Breakpoint Nat Nat)) (store last : Store String (Breakpoint Nat Nat))
      (fuel value : Nat), store.Has rest ∧
      (do
        let t ← StepStream.addAll compare (fun x y => pure (x == y)) ⟨0, rest⟩
          [⟨2, 5, 70⟩, ⟨3, 9, 80⟩]
        t.get compare 4) fuel store = some (value, last) ∧ value = 80) ∧
    ∃ left right : Nat → Listing (Breakpoint Nat Nat),
      StepStream.Makes (StepStream.addAll (ω := String) compare (fun x y => pure (x == y))
        (.constant 0) [⟨1, 3, 8⟩, ⟨3, 5, 9⟩]) .empty (fun _ => none) 0 left ∧
      Listing.Compatible left right := by
  intro equal f
  obtain ⟨looked, empty, repeated, streamed⟩ := add_overwrites (E := Nat) compare
  have exact (x y : Nat) : equal x y = true ↔ x = y := beq_iff_eq
  have increasing : Increasing compare f.breakpoints := by decide
  have apart (value value' : Nat) :
      Apart compare (⟨1, 3, value⟩ : Interval Nat Nat) ⟨3, 5, value'⟩ := by
    intro key inside
    simp only [covers, Bool.and_eq_true, bne_iff_ne, beq_iff_eq, Nat.compare_eq_gt] at inside
    simp only [covers, Nat.compare_eq_gt.mpr inside.2, bne_self_eq_false, Bool.false_and]
  refine ⟨looked Nat equal f _ 5 exact increasing, (empty Nat equal f ⟨6, 4, 8⟩ (by decide)).1,
    ((repeated Nat equal f ⟨1, 3, 8⟩ ⟨3, 5, 0⟩ exact ⟨increasing, by decide⟩).2
      (apart 8 0)).2 inferInstance, ?_, ?_⟩
  · obtain ⟨rest, store, last, M, fuel, ready, has, begins, result⟩ := readAdded_four
    obtain ⟨-, found, -⟩ := streamed String Nat (fun x y => pure (x == y)) ⟨0, rest⟩ store M exact
      ready has
    exact ⟨rest, store, last, fuel, 80, has, result, (found begins _ 4 fuel 80 last result).1 80 rfl⟩
  · obtain ⟨-, -, compatible⟩ := streamed String Nat (fun x y => pure (x == y)) (.constant 0) .empty
      (fun _ => none) exact Store.ready_empty Sequence.within_none
    have formed (xs : List (Breakpoint Nat Nat))
        (begins : Meaning.Begins (fun _ => none) none xs) :
        WellFormed compare equal ⟨0, xs⟩ := by
      cases begins
      exact wellFormed_constant
    obtain ⟨-, -, left, right, -, -, makes, -, -, together⟩ :=
      compatible formed ⟨1, 3, 8⟩ ⟨3, 5, 9⟩
    exact ⟨left, right, makes, together inferInstance (apart 8 9)⟩

end StepFunction

end DemandLex
