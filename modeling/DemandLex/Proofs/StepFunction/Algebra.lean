import DemandLex.Proofs.StepFunction.Canonical
import DemandLex.Proofs.StepFunction.Endless
import DemandLex.Proofs.StepFunction.History
import DemandLex.Proofs.StepFunction.Pointwise

/-! The laws of merging: it commutes when the reduction is turned around, and it is associative when
the reduction is. -/

namespace DemandLex

namespace StepFunction

variable {E A B R T : Type} {compare : E → E → Ordering}

theorem merge_swap [Std.OrientedCmp compare] [Std.LawfulEqCmp compare] {equal : R → R → Bool}
    {reduce : A → B → R} {f : StepFunction E A} {g : StepFunction E B} :
    g.merge ⟨compare, equal⟩ (fun y x => reduce x y) f = f.merge ⟨compare, equal⟩ reduce g := by
  have breakpoints : Listing.whole (g.merge ⟨compare, equal⟩ (fun y x => reduce x y) f).breakpoints =
      Listing.whole (f.merge ⟨compare, equal⟩ reduce g).breakpoints := by
    rw [← Listing.merge_whole, ← Listing.merge_whole, Listing.merge_swap]
  exact congrArg (StepFunction.mk (reduce f.first g.first)) (congrArg Listing.known breakpoints)

/-- Each nest has at every key the reduction of the three values, and neither repeats a value. -/
theorem merge_assoc [Std.TransCmp compare] [Std.LawfulEqCmp compare] {equal : T → T → Bool}
    {reduce : T → T → T} {f g h : StepFunction E T} (exact : ∀ x y, equal x y = true ↔ x = y)
    (assoc : ∀ x y z, reduce (reduce x y) z = reduce x (reduce y z))
    (first : Increasing compare f.breakpoints) (second : Increasing compare g.breakpoints)
    (third : Increasing compare h.breakpoints) :
    (f.merge ⟨compare, equal⟩ reduce g).merge ⟨compare, equal⟩ reduce h =
      f.merge ⟨compare, equal⟩ reduce (g.merge ⟨compare, equal⟩ reduce h) := by
  have values (x y : T) : equal x y = true → x = y := (exact x y).mp
  have left : Increasing compare (f.merge ⟨compare, equal⟩ reduce g).breakpoints :=
    (wellFormed_merge first second).increasing
  have right : Increasing compare (g.merge ⟨compare, equal⟩ reduce h).breakpoints :=
    (wellFormed_merge second third).increasing
  refine eq_of_get (fun x => (exact x x).mpr rfl) (wellFormed_merge left third)
    (wellFormed_merge first right) (assoc f.first g.first h.first) ?_
  intro key
  rw [get_merge_of_exact key values left third, get_merge_of_exact key values first second,
    get_merge_of_exact key values first right, get_merge_of_exact key values second third, assoc]

end StepFunction

namespace Listing

variable {E T : Type} {compare : E → E → Ordering}

/-- The two nests of three merges go on alike, as far as each of them goes on: both know no more than
the nests of what is known of the three at the later time, and these are the same. -/
theorem compatible_merge [Std.TransCmp compare] [Std.LawfulEqCmp compare] {equal : T → T → Bool}
    {reduce : T → T → T} {x y z : T} {c d e : Nat → Listing (Breakpoint E T)}
    (exact : ∀ x y, equal x y = true ↔ x = y)
    (assoc : ∀ x y z, reduce (reduce x y) z = reduce x (reduce y z))
    (firstMono : Monotone c) (secondMono : Monotone d) (thirdMono : Monotone e)
    (first : ∀ n, StepFunction.Increasing compare (c n).known)
    (second : ∀ n, StepFunction.Increasing compare (d n).known)
    (third : ∀ n, StepFunction.Increasing compare (e n).known) :
    Compatible
      (fun n => merge compare equal reduce (reduce x y) z
        (merge compare equal reduce x y (c n) (d n)) (e n))
      fun n => merge compare equal reduce x (reduce y z) (c n)
        (merge compare equal reduce y z (d n) (e n)) := by
  intro n m
  let f : StepFunction E T := ⟨x, (c (max n m)).known⟩
  let g : StepFunction E T := ⟨y, (d (max n m)).known⟩
  let h : StepFunction E T := ⟨z, (e (max n m)).known⟩
  have nests := StepFunction.merge_assoc (f := f) (g := g) (h := h) exact assoc (first _) (second _)
    (third _)
  have early {c : Nat → Listing (Breakpoint E T)} (mono : Monotone c) :
      c n ≤ whole (c (max n m)).known := (mono (le_max_left n m)).trans (le_whole _)
  have late {c : Nat → Listing (Breakpoint E T)} (mono : Monotone c) :
      c m ≤ whole (c (max n m)).known := (mono (le_max_right n m)).trans (le_whole _)
  refine ⟨.whole ((f.merge ⟨compare, equal⟩ reduce g).merge ⟨compare, equal⟩ reduce h).breakpoints,
    ?_, ?_⟩
  · rw [← merge_whole, ← merge_whole]
    exact merge_le (merge_le (early firstMono) (early secondMono)) (early thirdMono)
  · rw [nests, ← merge_whole, ← merge_whole]
    exact merge_le (late firstMono) (merge_le (late secondMono) (late thirdMono))

end Listing

namespace StepStream

variable {ω E T : Type} {a b d : StepStream E T} {f g h : StepFunction E T}
  {store : Store ω (Breakpoint E T)} {M : Meaning (Breakpoint E T)} {compare : E → E → Ordering}
  {equal : T → T → Noted ω Bool} {reduce : T → T → Noted ω T} {x y z : T}
  {c c' c'' : Nat → Listing (Breakpoint E T)}

def nestLeft (compare : E → E → Ordering) (equal : T → T → Noted ω Bool)
    (reduce : T → T → Noted ω T) (a b d : StepStream E T) :
    Lazy ω (Breakpoint E T) (StepStream E T) := do
  let ab ← mergeWith compare equal reduce a b
  mergeWith compare equal reduce ab d

def nestRight (compare : E → E → Ordering) (equal : T → T → Noted ω Bool)
    (reduce : T → T → Noted ω T) (a b d : StepStream E T) :
    Lazy ω (Breakpoint E T) (StepStream E T) := do
  let bd ← mergeWith compare equal reduce b d
  mergeWith compare equal reduce a bd

theorem returns_nestLeft (ready : store.Ready M) (first : a.Shows f store M)
    (second : b.Shows g store M) (third : d.Shows h store M) :
    (nestLeft compare equal reduce a b d).Returns store M fun s store' M' =>
      s.Shows ((f.merge ⟨compare, silent equal⟩ (silent reduce) g).merge ⟨compare, silent equal⟩
        (silent reduce) h) store' M' := by
  apply (returns_mergeWith ready first second).bind
  intro ab store' M' leaves shows
  exact returns_mergeWith leaves.ready shows (third.later ready leaves)

theorem returns_nestRight (ready : store.Ready M) (first : a.Shows f store M)
    (second : b.Shows g store M) (third : d.Shows h store M) :
    (nestRight compare equal reduce a b d).Returns store M fun s store' M' =>
      s.Shows (f.merge ⟨compare, silent equal⟩ (silent reduce)
        (g.merge ⟨compare, silent equal⟩ (silent reduce) h)) store' M' := by
  apply (returns_mergeWith ready second third).bind
  intro bd store' M' leaves shows
  exact returns_mergeWith leaves.ready (first.later ready leaves) shows

theorem makes_nestLeft (ready : store.Ready M) (first : a.Known x c store M)
    (second : b.Known y c' store M) (third : d.Known z c'' store M) :
    Makes (nestLeft compare equal reduce a b d) store M (silent reduce (silent reduce x y) z)
      fun n => Listing.merge compare (silent equal) (silent reduce) (silent reduce x y) z
        (Listing.merge compare (silent equal) (silent reduce) x y (c n) (c' n)) (c'' n) := by
  refine (makes_mergeWith ready first second).bind ?_ fun n headed =>
    (Listing.isHeaded_of_merge headed).1
  intro ab store' M' leaves known
  exact makes_mergeWith leaves.ready known (third.later ready leaves)

theorem makes_nestRight (ready : store.Ready M) (first : a.Known x c store M)
    (second : b.Known y c' store M) (third : d.Known z c'' store M) :
    Makes (nestRight compare equal reduce a b d) store M (silent reduce x (silent reduce y z))
      fun n => Listing.merge compare (silent equal) (silent reduce) x (silent reduce y z) (c n)
        (Listing.merge compare (silent equal) (silent reduce) y z (c' n) (c'' n)) := by
  refine (makes_mergeWith ready second third).bind ?_ fun n headed =>
    (Listing.isHeaded_of_merge headed).2
  intro bd store' M' leaves known
  exact makes_mergeWith leaves.ready (first.later ready leaves) known

theorem get_of_returns {key : E} {value : T} (ready : store.Ready M) (shows : a.Shows f store M)
    (returns : (a.get compare key).Returns store M fun found _ _ => found = value) :
    f.get compare key = value :=
  Lazy.returns_unique (returns_get ready shows) returns

end StepStream

namespace StepFunction

/-- A step function that repeats no value is known from its first value and its look-ups; a merge
commutes when the reduction is turned around, whatever the order of the breakpoints and whatever
values are taken as equal; and it is associative when the reduction is. So it is for lists of
breakpoints and for streams. The computations of two streams that commute come back together, and
what they make goes on alike, end or no end. The two nests of streams that end make the same; of
streams that do not, one nest may look for its next breakpoint forever where the other has found one,
and as far as both have come they are the same. -/
theorem merge_laws {E : Type} (compare : E → E → Ordering) [Std.TransCmp compare]
    [Std.LawfulEqCmp compare] :
    (∀ (T : Type) (equal : T → T → Bool) (f g : StepFunction E T), (∀ x, equal x x = true) →
      WellFormed compare equal f → WellFormed compare equal g → f.first = g.first →
      ((∀ key, f.get compare key = g.get compare key) → f = g) ∧
      ∀ (ω : Type) (a b : StepStream E T) (store : Store ω (Breakpoint E T))
        (M : Meaning (Breakpoint E T)), store.Ready M → a.Shows f store M → b.Shows g store M →
        (∀ key, ∃ value, (a.get compare key).Returns store M (fun found _ _ => found = value) ∧
          (b.get compare key).Returns store M fun found _ _ => found = value) → f = g) ∧
    (∀ (A B R : Type) (equal : R → R → Bool) (reduce : A → B → R) (f : StepFunction E A)
      (g : StepFunction E B),
      g.merge ⟨compare, equal⟩ (fun y x => reduce x y) f = f.merge ⟨compare, equal⟩ reduce g) ∧
    (∀ (ω T : Type) (equal : T → T → Noted ω Bool) (reduce : T → T → Noted ω T)
      (a b : StepStream E T) (store : Store ω (Breakpoint E T)) (M : Meaning (Breakpoint E T)),
      store.Ready M → store.Has a.rest → store.Has b.rest →
      ∃ first c,
        StepStream.Makes (StepStream.mergeWith compare equal reduce a b) store M first c ∧
        StepStream.Makes (StepStream.mergeWith compare equal (fun y x => reduce x y) b a) store M
          first c) ∧
    (∀ (T : Type) (equal : T → T → Bool) (reduce : T → T → T) (f g h : StepFunction E T),
      (∀ x y, equal x y = true ↔ x = y) →
      (∀ x y z, reduce (reduce x y) z = reduce x (reduce y z)) →
      Increasing compare f.breakpoints → Increasing compare g.breakpoints →
      Increasing compare h.breakpoints →
      (f.merge ⟨compare, equal⟩ reduce g).merge ⟨compare, equal⟩ reduce h =
        f.merge ⟨compare, equal⟩ reduce (g.merge ⟨compare, equal⟩ reduce h)) ∧
    ∀ (ω T : Type) (equal : T → T → Noted ω Bool) (reduce : T → T → Noted ω T)
      (a b d : StepStream E T) (store : Store ω (Breakpoint E T)) (M : Meaning (Breakpoint E T)),
      (∀ x y, silent equal x y = true ↔ x = y) →
      (∀ x y z, silent reduce (silent reduce x y) z = silent reduce x (silent reduce y z)) →
      store.Ready M →
      (∀ f g h, a.Shows f store M → b.Shows g store M → d.Shows h store M →
        Increasing compare f.breakpoints → Increasing compare g.breakpoints →
        Increasing compare h.breakpoints →
        ∃ nest,
          (StepStream.nestLeft compare equal reduce a b d).Returns store M
            (fun s store' M' => s.Shows nest store' M') ∧
          (StepStream.nestRight compare equal reduce a b d).Returns store M
            fun s store' M' => s.Shows nest store' M') ∧
      (store.Has a.rest → store.Has b.rest → store.Has d.rest →
        (∀ xs, M.Begins a.rest xs → Increasing compare xs) →
        (∀ ys, M.Begins b.rest ys → Increasing compare ys) →
        (∀ zs, M.Begins d.rest zs → Increasing compare zs) →
        ∃ first left right,
          StepStream.Makes (StepStream.nestLeft compare equal reduce a b d) store M first left ∧
          StepStream.Makes (StepStream.nestRight compare equal reduce a b d) store M first right ∧
          Listing.Compatible left right) := by
  refine ⟨?_, fun A B R equal reduce f g => merge_swap, ?_,
    fun T equal reduce f g h exact assoc first second third =>
      merge_assoc exact assoc first second third, ?_⟩
  · intro T equal f g reflexive left right first
    have determined := eq_of_get reflexive left right first
    refine ⟨determined, ?_⟩
    intro ω a b store M ready leftShows rightShows same
    apply determined
    intro key
    obtain ⟨value, leftFinds, rightFinds⟩ := same key
    rw [StepStream.get_of_returns ready leftShows leftFinds,
      StepStream.get_of_returns ready rightShows rightFinds]
  · intro ω T equal reduce a b store M ready hasLeft hasRight
    have left := StepStream.known_shown (M := M) hasLeft
    have right := StepStream.known_shown (M := M) hasRight
    refine ⟨_, _, StepStream.makes_mergeWith ready left right, ?_⟩
    have turned : StepStream.Makes
        (StepStream.mergeWith compare equal (fun y x => reduce x y) b a) store M _ _ :=
      StepStream.makes_mergeWith ready right left
    have same (n : Nat) :
        Listing.merge compare (silent equal) (fun y x => silent reduce x y) b.first a.first
          (M.shown n b.rest) (M.shown n a.rest) =
        Listing.merge compare (silent equal) (silent reduce) a.first b.first
          (M.shown n a.rest) (M.shown n b.rest) := Listing.merge_swap
    simp only [← same]
    exact turned
  · intro ω T equal reduce a b d store M exact assoc ready
    constructor
    · intro f g h leftShows midShows rightShows first second third
      refine ⟨_, StepStream.returns_nestLeft ready leftShows midShows rightShows, ?_⟩
      rw [merge_assoc exact assoc first second third]
      exact StepStream.returns_nestRight ready leftShows midShows rightShows
    · intro hasFirst hasSecond hasThird first second third
      have knownFirst := StepStream.known_shown (M := M) hasFirst
      have knownSecond := StepStream.known_shown (M := M) hasSecond
      have knownThird := StepStream.known_shown (M := M) hasThird
      refine ⟨_, _, _, StepStream.makes_nestLeft ready knownFirst knownSecond knownThird, ?_,
        Listing.compatible_merge exact assoc Meaning.shown_mono Meaning.shown_mono
          Meaning.shown_mono (fun n => first _ Meaning.begins_shown)
          (fun n => second _ Meaning.begins_shown) fun n => third _ Meaning.begins_shown⟩
      rw [assoc]
      exact StepStream.makes_nestRight ready knownFirst knownSecond knownThird

/-- Sums of step functions on the natural numbers, one of them with breakpoints that have no end. -/
theorem merge_laws_sums :
    let equal (x y : Nat) : Bool := x == y
    let f : StepFunction Nat Nat := ⟨0, [⟨2, 7⟩, ⟨5, 0⟩]⟩
    let g : StepFunction Nat Nat := ⟨1, [⟨3, 0⟩, ⟨5, 8⟩]⟩
    (constant 0).add ⟨compare, equal⟩ ⟨2, 5, 7⟩ = f ∧
    (f.merge ⟨compare, equal⟩ (· + ·) g).merge ⟨compare, equal⟩ (· + ·) f =
      f.merge ⟨compare, equal⟩ (· + ·) (g.merge ⟨compare, equal⟩ (· + ·) f) ∧
    (∃ (a : StepStream Nat Nat) (store : Store String (Breakpoint Nat Nat))
      (M : Meaning (Breakpoint Nat Nat)) (nest : StepFunction Nat Nat), a.Shows f store M ∧
      (StepStream.nestRight compare (fun x y => pure (x == y)) (fun x y => pure (x + y)) a a
        a).Returns store M fun s store' M' => s.Shows nest store' M') ∧
    ∃ (a : StepStream Nat Nat) (store : Store String (Breakpoint Nat Nat))
      (M : Meaning (Breakpoint Nat Nat)) (first sum : Nat)
      (c left right : Nat → Listing (Breakpoint Nat Nat)), store.Has a.rest ∧
      StepStream.Makes (StepStream.mergeWith compare (fun x y => pure (x == y))
        (fun y x => pure (x * y + x)) (.constant 1) a) store M first c ∧
      StepStream.Makes (StepStream.nestLeft compare (fun x y => pure (x == y))
        (fun x y => pure (x + y)) a (.constant 1) a) store M sum left ∧
      Listing.Compatible left right := by
  intro equal f g
  obtain ⟨canonical, -, commutes, associates, associatesStream⟩ := merge_laws (E := Nat) compare
  have exact (x y : Nat) : equal x y = true ↔ x = y := beq_iff_eq
  have left : Increasing compare f.breakpoints := by decide
  have right : Increasing compare g.breakpoints := by decide
  refine ⟨?_, associates Nat equal (· + ·) f g f exact Nat.add_assoc left right left, ?_, ?_⟩
  · refine (canonical Nat equal _ f (by simp [equal])
      (wellFormed_add (by decide) increasing_nil) ⟨left, by decide⟩ rfl).1 ?_
    intro key
    rw [get_add_of_exact key (fun x y => (exact x y).mp) increasing_nil]
    by_cases before : compare 2 key = .gt
    · rw [if_neg fun both => both.1 before]
      exact (valueFrom_cons_after before).symm
    · by_cases inside : compare 5 key = .gt
      · rw [if_pos ⟨before, inside⟩]
        exact ((valueFrom_cons_passed before).trans (valueFrom_cons_after inside)).symm
      · rw [if_neg fun both => inside both.2]
        exact ((valueFrom_cons_passed before).trans (valueFrom_cons_passed inside)).symm
  · obtain ⟨a, store, M, -, leaves, shows⟩ :=
      StepStream.returns_ofStepFunction (ω := String) (f := f) Store.ready_empty
    obtain ⟨nest, -, returns⟩ := (associatesStream String Nat (fun x y => pure (x == y))
      (fun x y => pure (x + y)) a a a store M exact Nat.add_assoc leaves.ready).1 f f f shows shows
        shows left left left
    exact ⟨a, store, M, nest, shows, returns⟩
  · obtain ⟨a, -, store, -, -, M, -, ready, has, increasing, -, -⟩ := readMerge_two
    have constant (ys : List (Breakpoint Nat Nat)) (begins : M.Begins none ys) :
        Increasing compare ys := by
      cases begins
      exact increasing_nil
    obtain ⟨first, c, -, turned⟩ := commutes String Nat (fun x y => pure (x == y))
      (fun x y => pure (x * y + x)) a (.constant 1) store M ready has Sequence.within_none
    obtain ⟨sum, left, right, nested, -, compatible⟩ := (associatesStream String Nat
      (fun x y => pure (x == y)) (fun x y => pure (x + y)) a (.constant 1) a store M exact
        Nat.add_assoc ready).2 has Sequence.within_none has increasing constant increasing
    exact ⟨a, store, M, first, sum, c, left, right, has, turned, nested, compatible⟩

end StepFunction

end DemandLex
