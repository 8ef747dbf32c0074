import DemandLex.Proofs.StepFunction.Endless
import DemandLex.Proofs.StepFunction.History

/-! Mapping changes the value at every key, and a mapping behind another one, or behind a merge, is a
part of it: what the first of the two leaves out, the second would have left out as well. -/

namespace DemandLex

namespace StepFunction

variable {E R S T : Type} {compare : E → E → Ordering}

def changed (change : T → R) (b : Breakpoint E T) : Breakpoint E R := ⟨b.edge, change b.value⟩

section Lookup
variable {change : T → R} {key : E} {value : T} {bs : List (Breakpoint E T)}

theorem valueFrom_changed :
    valueFrom compare key (change value) (bs.map (changed change)) =
      change (valueFrom compare key value bs) := by
  induction bs generalizing value with
  | nil => rfl
  | cons b later ih =>
    rw [List.map_cons, changed]
    by_cases after : compare b.edge key = .gt
    · rw [valueFrom_cons_after after, valueFrom_cons_after after]
    · rw [valueFrom_cons_passed after, valueFrom_cons_passed after, ih]

theorem get_map [Std.TransCmp compare] {equal : R → R → Bool} {f : StepFunction E T} (key : E)
    (increasing : Increasing compare f.breakpoints) :
    (f.map equal change).get compare key = change (f.get compare key) ∨
      equal ((f.map equal change).get compare key) (change (f.get compare key)) = true := by
  have mapped : valueFrom compare key (change f.first) (f.breakpoints.map (changed change)) =
      change (f.get compare key) := valueFrom_changed
  rw [← mapped]
  exact valueFrom_minimise key (increasing_map increasing) (Or.inl rfl)

end Lookup

section Fusion
variable {equal : R → R → Bool} {same : S → S → Bool} {next : R → S} {kept : R}
  {bs : List (Breakpoint E R)}

/-- Where the values kept are those of the source, the value kept behind the change is the change of
the value kept before it; so what was left out before repeats a value behind it. -/
theorem minimise_changed (values : ∀ x y, equal x y = true → x = y)
    (exact : ∀ x y, same x y = true ↔ x = y) :
    minimise same (next kept) ((minimise equal kept bs).map (changed next)) =
      minimise same (next kept) (bs.map (changed next)) := by
  induction bs generalizing kept with
  | nil => rfl
  | cons b later ih =>
    rw [List.map_cons, changed, minimise, minimise]
    split
    · rename_i absorbed
      have repeated : same (next kept) (next b.value) = true :=
        (exact _ _).mpr (congrArg next (values _ _ absorbed))
      rw [if_pos repeated]
      exact ih
    · rw [List.map_cons, changed, minimise]
      split
      · rename_i repeated
        rw [(exact _ _).mp repeated]
        exact ih
      · rw [ih]

theorem minimise_map_map {change : T → R} {value : T} {bs : List (Breakpoint E T)}
    (values : ∀ x y, equal x y = true → x = y) (exact : ∀ x y, same x y = true ↔ x = y) :
    minimise same (next (change value))
        ((minimise equal (change value) (bs.map (changed change))).map (changed next)) =
      minimise same (next (change value)) (bs.map (changed (next ∘ change))) :=
  calc
    _ = minimise same (next (change value)) ((bs.map (changed change)).map (changed next)) :=
      minimise_changed values exact
    _ = minimise same (next (change value)) (bs.map (changed (next ∘ change))) := by
      rw [List.map_map]
      rfl

theorem map_map {change : T → R} {f : StepFunction E T}
    (values : ∀ x y, equal x y = true → x = y) (exact : ∀ x y, same x y = true ↔ x = y) :
    (f.map equal change).map same next = f.map same (next ∘ change) :=
  congrArg (StepFunction.mk (next (change f.first)))
    (@minimise_map_map E R S T equal same next change f.first f.breakpoints values exact)

end Fusion

end StepFunction

namespace Listing

open StepFunction (changed minimise)

variable {E A B R S T : Type} {compare : E → E → Ordering} {reduce : A → B → R} {a : A} {b : B}
  {l : Listing (Breakpoint E A)} {r : Listing (Breakpoint E B)}

theorem map_behind {α β γ δ : Type} {l : Listing γ} {r : Listing δ} {value : α} {later : Listing α}
    {f : α → β} : (behind l r value later).map f = behind l r (f value) (later.map f) := by
  rw [behind, behind]
  split <;> rfl

theorem map_overlay {change : R → S} :
    (overlay compare reduce a b l r).map (changed change) =
      overlay compare (fun x y => change (reduce x y)) a b l r := by
  generalize size : l.known.length + r.known.length = length
  induction length using Nat.strongRecOn generalizing l r a b with
  | ind length ih =>
    cases size
    rcases meet compare l r with
      stuck | ⟨rfl, rfl⟩ | ⟨x, later, rfl, headed, smaller⟩ | ⟨y, later, rfl, headed, larger⟩ |
      ⟨x, later, y, later', rfl, rfl, same⟩
    · rw [overlay_unknown stuck, overlay_unknown stuck]
      rfl
    · rw [overlay_nil, overlay_nil]
      rfl
    · rw [overlay_cons_left smaller, overlay_cons_left smaller, map_behind,
        ih _ (by simp [cons]) rfl]
      rfl
    · rw [overlay_cons_right larger, overlay_cons_right larger, map_behind,
        ih _ (by simp [cons]) rfl]
      rfl
    · rw [overlay_cons_both same, overlay_cons_both same, map_behind,
        ih _ (by simp [cons]; omega) rfl]
      rfl

def change (equal : S → S → Bool) (next : R → S) (first : R) (l : Listing (Breakpoint E R)) :
    Listing (Breakpoint E S) :=
  (l.map (changed next)).through (minimise equal (next first))

section Change
variable {equal : R → R → Bool} {same : S → S → Bool} {next : R → S}

theorem change_change {f : T → R} {first : T} {l : Listing (Breakpoint E T)}
    (values : ∀ x y, equal x y = true → x = y) (exact : ∀ x y, same x y = true ↔ x = y) :
    change same next (f first) (change equal f first l) = change same (next ∘ f) first l :=
  congrArg (Listing.mk · l.complete) (StepFunction.minimise_map_map values exact)

theorem change_merge (values : ∀ x y, equal x y = true → x = y)
    (exact : ∀ x y, same x y = true ↔ x = y) :
    change same next (reduce a b) (merge compare equal reduce a b l r) =
      merge compare same (fun x y => next (reduce x y)) a b l r :=
  calc
    _ = ((overlay compare reduce a b l r).map (changed next)).through
          (minimise same (next (reduce a b))) :=
      congrArg (Listing.mk · _) (StepFunction.minimise_changed values exact)
    _ = merge compare same (fun x y => next (reduce x y)) a b l r := by
      rw [map_overlay, merge]

theorem isHeaded_of_change {first : R} {l : Listing (Breakpoint E R)}
    (headed : (change same next first l).isHeaded = true) : l.isHeaded = true := by
  cases begun : l.isHeaded with
  | true => rfl
  | false =>
    rw [eq_unknown_of_isHeaded begun] at headed
    cases headed

end Change

end Listing

namespace StepFunction

theorem map_merge {E A B R S : Type} {compare : E → E → Ordering} {equal : R → R → Bool}
    {same : S → S → Bool} {reduce : A → B → R} {next : R → S} {f : StepFunction E A}
    {g : StepFunction E B} (values : ∀ x y, equal x y = true → x = y)
    (exact : ∀ x y, same x y = true ↔ x = y) :
    (f.merge ⟨compare, equal⟩ reduce g).map same next =
      f.merge ⟨compare, same⟩ (fun x y => next (reduce x y)) g := by
  have breakpoints :
      Listing.whole ((f.merge ⟨compare, equal⟩ reduce g).map same next).breakpoints =
        .whole (f.merge ⟨compare, same⟩ (fun x y => next (reduce x y)) g).breakpoints :=
    calc
      _ = Listing.change same next (reduce f.first g.first)
            (.whole (f.merge ⟨compare, equal⟩ reduce g).breakpoints) := rfl
      _ = .merge compare same (fun x y => next (reduce x y)) f.first g.first
            (.whole f.breakpoints) (.whole g.breakpoints) := by
        rw [← Listing.merge_whole, Listing.change_merge values exact]
      _ = .whole (f.merge ⟨compare, same⟩ (fun x y => next (reduce x y)) g).breakpoints :=
        Listing.merge_whole
  exact congrArg (StepFunction.mk (next (reduce f.first g.first)))
    (congrArg Listing.known breakpoints)

end StepFunction

namespace StepStream

variable {ω E T : Type} {s a b : StepStream E T} {f : StepFunction E T}
  {store : Store ω (Breakpoint E T)} {M : Meaning (Breakpoint E T)} {compare : E → E → Ordering}
  {equal : T → T → Noted ω Bool} {reduce : T → T → Noted ω T} {change next : T → Noted ω T}
  {first second : T} {c d : Nat → Listing (Breakpoint E T)}

theorem makes_map (ready : store.Ready M) (known : s.Known first c store M) :
    Makes (s.map equal change) store M (change first).value
      fun n => Listing.change (silent equal) (fun x => (change x).value) first (c n) := by
  obtain ⟨rfl, rest⟩ := known
  apply makes_share ready
  refine Sequence.makes_share (Lazy.leaves_log _ ready).ready
    (Producer.grounded_scanFilter (Producer.grounded_scanFilter (Producer.grounded_reading rest.has)))
    (Producer.sameLimit_minimise ?_)
  exact Producer.sameLimit_scanned (Producer.sameLimit_reading.trans rest.denotes)
    Producer.scanned_map

def mapTwice (equal : T → T → Noted ω Bool) (change next : T → Noted ω T) (s : StepStream E T) :
    Lazy ω (Breakpoint E T) (StepStream E T) := do
  let mapped ← s.map equal change
  mapped.map equal next

def mapMerged (compare : E → E → Ordering) (equal : T → T → Noted ω Bool)
    (reduce : T → T → Noted ω T) (next : T → Noted ω T) (a b : StepStream E T) :
    Lazy ω (Breakpoint E T) (StepStream E T) := do
  let merged ← mergeWith compare equal reduce a b
  merged.map equal next

theorem makes_mapTwice (ready : store.Ready M) (known : s.Known first c store M)
    (exact : ∀ x y, silent equal x y = true ↔ x = y) :
    Makes (mapTwice equal change next s) store M (next (change first).value).value
      fun n => Listing.change (silent equal) (fun x => (change x >>= next).value) first (c n) := by
  have twice (n : Nat) : Listing.change (silent equal) (fun x => (next x).value) (change first).value
      (Listing.change (silent equal) (fun x => (change x).value) first (c n)) =
        Listing.change (silent equal) (fun x => (change x >>= next).value) first (c n) :=
    Listing.change_change (fun x y => (exact x y).mp) exact
  simp only [← twice]
  refine (makes_map ready known).bind ?_ fun n headed => Listing.isHeaded_of_change headed
  intro mapped store' M' leaves known'
  exact makes_map leaves.ready known'

theorem makes_mapMerged (ready : store.Ready M) (left : a.Known first c store M)
    (right : b.Known second d store M) (exact : ∀ x y, silent equal x y = true ↔ x = y) :
    Makes (mapMerged compare equal reduce next a b) store M (next (silent reduce first second)).value
      fun n => Listing.merge compare (silent equal) (silent fun x y => reduce x y >>= next) first
        second (c n) (d n) := by
  have behind (n : Nat) : Listing.change (silent equal) (fun x => (next x).value)
      (silent reduce first second) (Listing.merge compare (silent equal) (silent reduce) first second
        (c n) (d n)) =
      Listing.merge compare (silent equal) (silent fun x y => reduce x y >>= next) first second (c n)
        (d n) :=
    Listing.change_merge (fun x y => (exact x y).mp) exact
  simp only [← behind]
  refine (makes_mergeWith ready left right).bind ?_ fun n headed => Listing.isHeaded_of_change headed
  intro merged store' M' leaves known
  exact makes_map leaves.ready known

end StepStream

namespace StepFunction

theorem returns_get_map {ω E T : Type} {compare : E → E → Ordering} [Std.TransCmp compare]
    {equal : T → T → Noted ω Bool} {change : T → Noted ω T} {a : StepStream E T}
    {f : StepFunction E T} {store : Store ω (Breakpoint E T)} {M : Meaning (Breakpoint E T)} (key : E)
    (increasing : Increasing compare f.breakpoints) (ready : store.Ready M)
    (shows : a.Shows f store M) :
    (do
      let x ← a.get compare key
      let mapped ← a.map equal change
      let y ← mapped.get compare key
      pure (x, y)).Returns store M fun (x, y) _ _ =>
        y = (change x).value ∨ silent equal y (change x).value = true := by
  apply (StepStream.returns_get ready shows).bind
  intro x store₁ M₁ leaves₁ same
  subst same
  apply (StepStream.returns_map leaves₁.ready (shows.later ready leaves₁)).bind
  intro mapped store₂ M₂ leaves₂ shows₂
  apply (StepStream.returns_get leaves₂.ready shows₂).bind
  intro y store₃ M₃ leaves₃ same
  subst same
  exact Lazy.returns_pure leaves₃.ready (get_map key increasing)

/-- A mapping has at every key the change of the value there, or a value equal to it. With equality
that is exact, two mappings are one, and a mapping behind a merge is part of its reduction, although
each of the two computations has left breakpoints out in between. So it is for lists of breakpoints and
for streams; those that become one come back together, and what they make goes on alike, end or no
end. -/
theorem map_laws {E : Type} (compare : E → E → Ordering) [Std.TransCmp compare] :
    (∀ (T R : Type) (equal : R → R → Bool) (change : T → R) (f : StepFunction E T) (key : E),
      Increasing compare f.breakpoints →
      (f.map equal change).get compare key = change (f.get compare key) ∨
        equal ((f.map equal change).get compare key) (change (f.get compare key)) = true) ∧
    (∀ (ω T : Type) (equal : T → T → Noted ω Bool) (change : T → Noted ω T) (a : StepStream E T)
      (f : StepFunction E T) (store : Store ω (Breakpoint E T)) (M : Meaning (Breakpoint E T))
      (key : E), Increasing compare f.breakpoints → store.Ready M → a.Shows f store M →
      (do
        let x ← a.get compare key
        let mapped ← a.map equal change
        let y ← mapped.get compare key
        pure (x, y)).Returns store M fun (x, y) _ _ =>
          y = (change x).value ∨ silent equal y (change x).value = true) ∧
    (∀ (T R S : Type) (equal : R → R → Bool) (same : S → S → Bool) (change : T → R) (next : R → S)
      (f : StepFunction E T), (∀ x y, equal x y = true ↔ x = y) →
      (∀ x y, same x y = true ↔ x = y) →
      (f.map equal change).map same next = f.map same (next ∘ change)) ∧
    (∀ (A B R S : Type) (equal : R → R → Bool) (same : S → S → Bool) (reduce : A → B → R)
      (next : R → S) (f : StepFunction E A) (g : StepFunction E B),
      (∀ x y, equal x y = true ↔ x = y) → (∀ x y, same x y = true ↔ x = y) →
      (f.merge ⟨compare, equal⟩ reduce g).map same next =
        f.merge ⟨compare, same⟩ (fun x y => next (reduce x y)) g) ∧
    ∀ (ω T : Type) (equal : T → T → Noted ω Bool) (reduce : T → T → Noted ω T)
      (change next : T → Noted ω T) (a b : StepStream E T) (store : Store ω (Breakpoint E T))
      (M : Meaning (Breakpoint E T)), (∀ x y, silent equal x y = true ↔ x = y) → store.Ready M →
      store.Has a.rest → store.Has b.rest →
      (∃ first c,
        StepStream.Makes (StepStream.mapTwice equal change next a) store M first c ∧
        StepStream.Makes (a.map equal fun x => change x >>= next) store M first c) ∧
      ∃ first c,
        StepStream.Makes (StepStream.mapMerged compare equal reduce next a b) store M first c ∧
        StepStream.Makes (StepStream.mergeWith compare equal (fun x y => reduce x y >>= next) a b)
          store M first c := by
  refine ⟨fun T R equal change f key increasing => get_map key increasing,
    fun ω T equal change a f store M key increasing ready shows =>
      returns_get_map key increasing ready shows,
    fun T R S equal same change next f values exact => map_map (fun x y => (values x y).mp) exact,
    fun A B R S equal same reduce next f g values exact =>
      map_merge (fun x y => (values x y).mp) exact, ?_⟩
  intro ω T equal reduce change next a b store M exact ready hasLeft hasRight
  have left := StepStream.known_shown (M := M) hasLeft
  have right := StepStream.known_shown (M := M) hasRight
  exact ⟨⟨_, _, StepStream.makes_mapTwice ready left exact, StepStream.makes_map ready left⟩,
    _, _, StepStream.makes_mapMerged ready left right exact,
    StepStream.makes_mergeWith ready left right⟩

/-- Thirds and halves of natural numbers: the first mapping leaves nothing out, and the second one
most; one of the step functions has breakpoints that have no end. -/
theorem map_laws_numbers :
    let equal (x y : Nat) : Bool := x == y
    let near (x y : Nat) : Bool := x ≤ y + 1 && y ≤ x + 1
    let exactly (x y : Nat) : Noted String Bool := pure (x == y)
    let third (x : Nat) : Noted String Nat := pure (x % 3)
    let half (x : Nat) : Noted String Nat := pure (x / 2)
    let sum (x y : Nat) : Noted String Nat := pure (x + y)
    let f : StepFunction Nat Nat := ⟨0, [⟨1, 1⟩, ⟨2, 2⟩, ⟨3, 3⟩, ⟨4, 4⟩]⟩
    ((f.map near (· + 1)).get compare 3 = 4 ∨ near ((f.map near (· + 1)).get compare 3) 4 = true) ∧
    (f.map equal (· % 3)).map equal (· / 2) = f.map equal ((· / 2) ∘ (· % 3)) ∧
    (f.merge ⟨compare, equal⟩ (· + ·) f).map equal (· % 3) =
      f.merge ⟨compare, equal⟩ (fun x y => (x + y) % 3) f ∧
    (∃ (a : StepStream Nat Nat) (store : Store String (Breakpoint Nat Nat))
      (M : Meaning (Breakpoint Nat Nat)), a.Shows f store M ∧
      (do
        let x ← a.get compare 3
        let mapped ← a.map exactly third
        let y ← mapped.get compare 3
        pure (x, y)).Returns store M fun (x, y) _ _ =>
          y = (third x).value ∨ silent exactly y (third x).value = true) ∧
    ∃ (a : StepStream Nat Nat) (store : Store String (Breakpoint Nat Nat))
      (M : Meaning (Breakpoint Nat Nat)) (first first' : Nat)
      (c d : Nat → Listing (Breakpoint Nat Nat)), store.Has a.rest ∧
      StepStream.Makes (StepStream.mapTwice exactly third half a) store M first c ∧
      StepStream.Makes (a.map exactly fun x => third x >>= half) store M first c ∧
      StepStream.Makes (StepStream.mapMerged compare exactly sum half a a) store M first' d ∧
      StepStream.Makes (StepStream.mergeWith compare exactly (fun x y => sum x y >>= half) a a) store
        M first' d := by
  intro equal near exactly third half sum f
  obtain ⟨pointwise, streamed, fuses, absorbs, endless⟩ := map_laws (E := Nat) compare
  have exact (x y : Nat) : equal x y = true ↔ x = y := beq_iff_eq
  have increasing : Increasing compare f.breakpoints := by decide
  refine ⟨pointwise Nat Nat near (· + 1) f 3 increasing,
    fuses Nat Nat Nat equal equal (· % 3) (· / 2) f exact exact,
    absorbs Nat Nat Nat Nat equal equal (· + ·) (· % 3) f f exact exact, ?_, ?_⟩
  · obtain ⟨a, store, M, -, leaves, shows⟩ :=
      StepStream.returns_ofStepFunction (ω := String) (f := f) Store.ready_empty
    exact ⟨a, store, M, shows,
      streamed String Nat exactly third a f store M 3 increasing leaves.ready shows⟩
  · obtain ⟨a, -, store, -, -, M, -, ready, has, -⟩ := readMerge_two
    obtain ⟨⟨first, c, twice, fused⟩, first', d, behind, within⟩ :=
      endless String Nat exactly sum third half a a store M exact ready has has
    exact ⟨a, store, M, first, first', c, d, has, twice, fused, behind, within⟩

end StepFunction

end DemandLex
