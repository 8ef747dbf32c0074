import Mathlib.Data.List.Forall2
import Mathlib.Data.List.Infix
import Mathlib.Data.List.TakeWhile
import Mathlib.Order.Filter.AtTopBot.Basic
import Mathlib.Order.Filter.Finite

/-! What is known of the elements of a list that may have no end: the first of them, and whether
these are all. The list functions go over to listings; more known of the arguments is more known of
the result. -/

namespace DemandLex

universe u v

structure Listing (α : Type u) where
  known : List α
  complete : Bool
  deriving DecidableEq, Repr

namespace Listing

variable {α : Type u} {β : Type v} {l l' r r' : Listing α}

def whole (values : List α) : Listing α := ⟨values, true⟩

def unknown : Listing α := ⟨[], false⟩

def isHeaded (l : Listing α) : Bool := l.complete || !l.known.isEmpty

def cons (value : α) (l : Listing α) : Listing α := ⟨value :: l.known, l.complete⟩

/-- A list function that gives more outputs on more elements. -/
def through (l : Listing α) (f : List α → List β) : Listing β := ⟨f l.known, l.complete⟩

def map (l : Listing α) (f : α → β) : Listing β := l.through (List.map f)

def append (l r : Listing α) : Listing α :=
  if l.complete then ⟨l.known ++ r.known, r.complete⟩ else l

/-- The listings one behind the other, as far as the first that has no known end. -/
def flatten (parts : Listing (Listing α)) : Listing α :=
  parts.known.foldr append ⟨[], parts.complete⟩

def take (l : Listing α) (count : Nat) : Listing α :=
  ⟨l.known.take count, l.complete || decide (count ≤ l.known.length)⟩

def takeWhile (l : Listing α) (keep : α → Bool) : Listing α :=
  ⟨l.known.takeWhile keep, l.complete || !l.known.all keep⟩

def rest (l : Listing α) : Listing α := ⟨l.known.tail, l.complete⟩

def dropWhile (l : Listing α) (drop : α → Bool) : Listing α := ⟨l.known.dropWhile drop, l.complete⟩

/-- Nothing is known of the opposite order before the end is known. -/
def reverse (l : Listing α) : Listing α := if l.complete then whole l.known.reverse else unknown

def all? (l : Listing α) (f : List α → β) : Option β :=
  if l.complete then some (f l.known) else none

def first? (l : Listing α) : Option (Option α) :=
  if l.isHeaded then some l.known.head? else none

def take? (l : Listing α) (count : Nat) : Option (List α) :=
  if l.complete || decide (count < l.known.length) then some (l.known.take count) else none

def uncons? (l : Listing α) : Option (Option (α × Option α)) :=
  match l.known with
  | [] => if l.complete then some none else none
  | value :: _ => l.rest.first?.map fun second => some (value, second)

def unfold {σ : Type v} (step : σ → Option (α × σ)) : Nat → σ → Listing α
  | 0, _ => unknown
  | depth + 1, seed =>
    match step seed with
    | some (value, next) => cons value (unfold step depth next)
    | none => whole []

/-- The first listing knows no more than the second. -/
instance : PartialOrder (Listing α) where
  le l l' := l.known <+: l'.known ∧ (l.complete = true → l' = l)
  le_refl l := ⟨List.prefix_refl _, fun _ => rfl⟩
  le_trans l l' l'' first second := by
    refine ⟨first.1.trans second.1, ?_⟩
    intro complete
    have same := first.2 complete
    subst same
    exact second.2 complete
  le_antisymm l l' first second := by
    have known := first.1.eq_of_length (Nat.le_antisymm first.1.length_le second.1.length_le)
    cases complete : l.complete with
    | true => exact (first.2 complete).symm
    | false =>
      cases complete' : l'.complete with
      | true => exact second.2 complete'
      | false =>
        obtain ⟨values, ends⟩ := l
        obtain ⟨values', ends'⟩ := l'
        cases known
        cases complete
        cases complete'
        rfl

theorem unknown_le : unknown ≤ l := ⟨List.nil_prefix, fun complete => by cases complete⟩

theorem whole_le {values : List α} : whole values ≤ l ↔ l = whole values := by
  constructor
  · exact fun le => le.2 rfl
  · rintro rfl
    exact le_rfl

theorem le_of_prefix (inside : l.known <+: l'.known) (opened : l.complete = false) : l ≤ l' :=
  ⟨inside, fun complete => by rw [opened] at complete; cases complete⟩

theorem cons_inj {value value' : α} :
    cons value l = cons value' l' ↔ value = value' ∧ l = l' := by
  obtain ⟨known, complete⟩ := l
  obtain ⟨known', complete'⟩ := l'
  simp [cons, and_assoc]

theorem eq_unknown_of_isHeaded (headless : l.isHeaded = false) : l = unknown := by
  obtain ⟨known, complete⟩ := l
  simp only [isHeaded, Bool.or_eq_false_iff, Bool.not_eq_false', List.isEmpty_iff] at headless
  obtain ⟨rfl, rfl⟩ := headless
  rfl

theorem isHeaded_of_le (le : l ≤ l') (headed : l.isHeaded = true) : l'.isHeaded = true := by
  cases complete : l.complete with
  | true => rwa [le.2 complete]
  | false =>
    have some : l.known ≠ [] := by simpa [isHeaded, complete] using headed
    have some' : l'.known ≠ [] := fun none => some (List.prefix_nil.mp (none ▸ le.1))
    simp [isHeaded, some']

section Functions

theorem cons_le {value : α} (le : l ≤ l') : cons value l ≤ cons value l' := by
  refine ⟨List.cons_prefix_cons.mpr ⟨rfl, le.1⟩, ?_⟩
  intro complete
  rw [le.2 complete]

theorem through_le {f : List α → List β} (more : ∀ values later, f values <+: f (values ++ later))
    (le : l ≤ l') : l.through f ≤ l'.through f := by
  constructor
  · obtain ⟨later, same⟩ := le.1
    rw [through, through, ← same]
    exact more l.known later
  · intro complete
    rw [le.2 complete]

theorem append_le (first : l ≤ l') (second : r ≤ r') : l.append r ≤ l'.append r' := by
  cases complete : l.complete with
  | true =>
    rw [first.2 complete]
    simp only [append, complete, if_true]
    refine ⟨(List.prefix_append_right_inj _).mpr second.1, ?_⟩
    intro ends
    rw [second.2 ends]
  | false =>
    have opened : l.append r = l := by simp [append, complete]
    rw [opened]
    refine le_of_prefix (first.1.trans ?_) complete
    rw [append]
    split
    · exact List.prefix_append ..
    · exact List.prefix_refl _

theorem append_cons {value : α} : (cons value l).append r = cons value (l.append r) := by
  cases complete : l.complete <;> simp [append, cons, complete]

theorem nil_append : (whole []).append r = r := rfl

theorem append_nil : l.append (whole []) = l := by
  obtain ⟨known, complete⟩ := l
  cases complete <;> simp [append, whole]

theorem append_assoc {l'' : Listing α} : (l.append l').append l'' = l.append (l'.append l'') := by
  cases complete : l.complete with
  | true =>
    simp only [append, complete, if_true]
    split <;> simp
  | false => simp [append, complete]

theorem isHeaded_of_append (headed : (l.append r).isHeaded = true) : l.isHeaded = true := by
  cases complete : l.complete with
  | true => simp [isHeaded, complete]
  | false => simpa [append, complete] using headed

theorem map_map {γ : Type v} {f : α → β} {g : β → γ} : (l.map f).map g = l.map (g ∘ f) := by
  simp [map, through]

theorem take_zero : l.take 0 = whole [] := by simp [take, whole]

theorem take_unknown {count : Nat} : (unknown : Listing α).take (count + 1) = unknown := by
  simp [take, unknown]

theorem take_cons {value : α} {count : Nat} :
    (cons value l).take (count + 1) = cons value (l.take count) := by
  simp [take, cons]

theorem takeWhile_cons_kept {value : α} {keep : α → Bool} (kept : keep value = true) :
    (cons value l).takeWhile keep = cons value (l.takeWhile keep) := by
  simp [takeWhile, cons, kept]

theorem takeWhile_cons_dropped {value : α} {keep : α → Bool} (dropped : keep value = false) :
    (cons value l).takeWhile keep = whole [] := by
  simp [takeWhile, cons, whole, dropped]

theorem take_le {count : Nat} (le : l ≤ l') : l.take count ≤ l'.take count := by
  obtain ⟨later, same⟩ := le.1
  refine ⟨?_, ?_⟩
  · rw [take, take, ← same, List.take_append]
    exact List.prefix_append ..
  · intro complete
    simp only [take, Bool.or_eq_true, decide_eq_true_eq] at complete
    rcases complete with complete | enough
    · rw [le.2 complete]
    · have enough' : count ≤ l'.known.length := enough.trans le.1.length_le
      simp only [take, enough, enough', decide_true, Bool.or_true, mk.injEq, and_true]
      rw [← same, List.take_append_of_le_length enough]

theorem takeWhile_le {keep : α → Bool} (le : l ≤ l') : l.takeWhile keep ≤ l'.takeWhile keep := by
  cases all : l.known.all keep with
  | true =>
    have kept : l.known.takeWhile keep = l.known :=
      List.takeWhile_eq_self_iff.mpr (List.all_eq_true.mp all)
    cases complete : l.complete with
    | true => rw [le.2 complete]
    | false =>
      apply le_of_prefix
      · obtain ⟨later, same⟩ := le.1
        rw [takeWhile, takeWhile, kept, ← same, List.takeWhile_append, kept, if_pos rfl]
        exact List.prefix_append ..
      · simp [takeWhile, all, complete]
  | false =>
    obtain ⟨later, same⟩ := le.1
    have stops : l.known.takeWhile keep ≠ l.known := by
      intro kept
      rw [List.takeWhile_eq_self_iff] at kept
      rw [List.all_eq_true.mpr kept] at all
      cases all
    have shorter : (l.known.takeWhile keep).length ≠ l.known.length :=
      fun same => stops ((List.takeWhile_prefix keep).eq_of_length same)
    have same' : l'.takeWhile keep = l.takeWhile keep := by
      simp only [takeWhile, ← same, List.takeWhile_append, if_neg shorter, List.all_append, all,
        Bool.false_and, Bool.not_false, Bool.or_true]
    rw [same']

theorem rest_le (le : l ≤ l') : l.rest ≤ l'.rest := by
  refine ⟨by simpa [rest] using le.1.drop 1, ?_⟩
  intro complete
  rw [le.2 complete]

theorem dropWhile_cons_dropped {value : α} {drop : α → Bool} (dropped : drop value = true) :
    (cons value l).dropWhile drop = l.dropWhile drop := by
  simp [dropWhile, cons, dropped]

theorem dropWhile_cons_kept {value : α} {drop : α → Bool} (kept : drop value = false) :
    (cons value l).dropWhile drop = cons value l := by
  simp [dropWhile, cons, kept]

theorem dropWhile_le {drop : α → Bool} (le : l ≤ l') : l.dropWhile drop ≤ l'.dropWhile drop := by
  constructor
  · obtain ⟨later, same⟩ := le.1
    rw [dropWhile, dropWhile, ← same, List.dropWhile_append]
    split
    · next none =>
      rw [List.isEmpty_iff] at none
      rw [none]
      exact List.nil_prefix
    · exact List.prefix_append ..
  · intro complete
    rw [le.2 complete]

theorem reverse_le (le : l ≤ l') : l.reverse ≤ l'.reverse := by
  cases complete : l.complete with
  | true => rw [le.2 complete]
  | false =>
    have open' : l.reverse = unknown := by simp [reverse, complete]
    rw [open']
    exact unknown_le

theorem whole_of_isHeaded_reverse (headed : l.reverse.isHeaded = true) :
    ∃ values, l = whole values := by
  cases complete : l.complete with
  | true =>
    refine ⟨l.known, ?_⟩
    rw [whole, ← complete]
  | false =>
    simp only [reverse, complete] at headed
    cases headed

theorem all?_eq_some {f : List α → β} {answer : β} :
    l.all? f = some answer ↔ l = whole l.known ∧ f l.known = answer := by
  obtain ⟨known, complete⟩ := l
  simp [all?, whole]

theorem map_all? {γ : Type v} {f : List α → β} {g : β → γ} :
    (l.all? f).map g = l.all? (g ∘ f) := by
  rw [all?, all?]
  split <;> rfl

theorem all?_of_le {f : List α → β} {answer : β} (le : l ≤ l') (known : l.all? f = some answer) :
    l'.all? f = some answer := by
  cases complete : l.complete with
  | true => rwa [le.2 complete]
  | false => simp [all?, complete] at known

theorem first?_of_le {answer : Option α} (le : l ≤ l') (known : l.first? = some answer) :
    l'.first? = some answer := by
  cases complete : l.complete with
  | true => rwa [le.2 complete]
  | false =>
    obtain ⟨later, same⟩ := le.1
    obtain ⟨values, ends⟩ := l
    cases complete
    cases values with
    | nil => simp [first?, isHeaded] at known
    | cons value values => simpa [first?, isHeaded, ← same] using known

theorem take?_zero (headed : l.isHeaded = true) : l.take? 0 = some [] := by
  obtain ⟨known, complete⟩ := l
  cases known <;> simp_all [take?, isHeaded]

theorem take?_cons {value : α} {count : Nat} :
    (cons value l).take? (count + 1) = (l.take? count).map (value :: ·) := by
  simp only [take?, cons, List.length_cons, Nat.add_lt_add_iff_right, List.take_succ_cons]
  split <;> rfl

theorem uncons?_cons {value : α} :
    (cons value l).uncons? = l.first?.map fun second => some (value, second) := rfl

theorem take?_of_le {count : Nat} {answer : List α} (le : l ≤ l')
    (known : l.take? count = some answer) : l'.take? count = some answer := by
  cases complete : l.complete with
  | true => rwa [le.2 complete]
  | false =>
    obtain ⟨later, same⟩ := le.1
    simp only [take?, complete, Bool.false_or, decide_eq_true_eq] at known
    split at known
    · next enough =>
      have enough' : count < l'.known.length := enough.trans_le le.1.length_le
      simp only [take?, enough', decide_true, Bool.or_true, if_true]
      rw [← same, List.take_append_of_le_length enough.le]
      exact known
    · cases known

theorem uncons?_of_le {answer : Option (α × Option α)} (le : l ≤ l')
    (known : l.uncons? = some answer) : l'.uncons? = some answer := by
  cases complete : l.complete with
  | true => rwa [le.2 complete]
  | false =>
    obtain ⟨later, same⟩ := le.1
    have behind := rest_le le
    obtain ⟨values, ends⟩ := l
    obtain ⟨values', ends'⟩ := l'
    cases complete
    cases values with
    | nil => simp [uncons?] at known
    | cons value values =>
      cases same
      simp only [uncons?, Option.map_eq_some_iff] at known ⊢
      obtain ⟨second, found, rfl⟩ := known
      exact ⟨second, first?_of_le behind found, rfl⟩

theorem flatten_le {parts parts' later : List (Listing α)} {complete complete' : Bool}
    (le : List.Forall₂ (· ≤ ·) parts parts')
    (ends : complete = true → later = [] ∧ complete' = true) :
    flatten ⟨parts, complete⟩ ≤ flatten ⟨parts' ++ later, complete'⟩ := by
  induction le with
  | nil =>
    cases complete with
    | true =>
      obtain ⟨rfl, rfl⟩ := ends rfl
      exact le_rfl
    | false => exact unknown_le
  | cons first _ ih => exact append_le first ih

theorem flatten_map_le {f g : α → Listing β} (le : l ≤ l') (more : ∀ value ∈ l.known, f value ≤ g value) :
    (l.map f).flatten ≤ (l'.map g).flatten := by
  obtain ⟨later, same⟩ := le.1
  have parts : List.Forall₂ (· ≤ ·) (l.known.map f) (l.known.map g) := by
    rw [List.forall₂_map_left_iff, List.forall₂_map_right_iff, List.forall₂_same]
    exact more
  have ends : l.complete = true → later.map g = [] ∧ l'.complete = true := by
    intro complete
    rw [le.2 complete] at same ⊢
    exact ⟨by simpa using same, complete⟩
  have whole : flatten ⟨l.known.map f, l.complete⟩ ≤
      flatten ⟨l.known.map g ++ later.map g, l'.complete⟩ := flatten_le parts ends
  rwa [← List.map_append, same] at whole

end Functions

section Limit

open Filter

/-- Both go on to the same list: what the one knows at some time, the other knows from some time
on. -/
structure SameLimit (c c' : Nat → Listing α) : Prop where
  le (n : Nat) : ∀ᶠ m in atTop, c n ≤ c' m
  ge (n : Nat) : ∀ᶠ m in atTop, c' n ≤ c m

variable {c c' c'' : Nat → Listing α}

theorem eventually_le (mono : Monotone c) {n : Nat} (le : l ≤ c n) : ∀ᶠ m in atTop, l ≤ c m := by
  filter_upwards [eventually_ge_atTop n] with m later
  exact le.trans (mono later)

theorem SameLimit.refl (mono : Monotone c) : SameLimit c c :=
  ⟨fun _ => eventually_le mono le_rfl, fun _ => eventually_le mono le_rfl⟩

theorem SameLimit.symm (same : SameLimit c c') : SameLimit c' c := ⟨same.ge, same.le⟩

theorem SameLimit.trans (first : SameLimit c c') (second : SameLimit c' c'') :
    SameLimit c c'' where
  le n := by
    obtain ⟨m, le⟩ := (first.le n).exists
    exact (second.le m).mono fun _ le' => le.trans le'
  ge n := by
    obtain ⟨m, le⟩ := (second.ge n).exists
    exact (first.ge m).mono fun _ le' => le.trans le'

/-- Being behind for some time makes no difference. -/
theorem sameLimit_of_shift (behind : Nat) (mono : Monotone c) (shift : ∀ n, c (n + behind) = c' n) :
    SameLimit c c' where
  le n := by
    filter_upwards [eventually_ge_atTop n] with m later
    rw [← shift]
    exact mono (later.trans (Nat.le_add_right m behind))
  ge n := eventually_le mono (shift n).ge

theorem sameLimit_whole {values : List α} {n : Nat} (mono : Monotone c) (ends : c n = whole values) :
    SameLimit (fun _ => whole values) c where
  le _ := eventually_le mono ends.ge
  ge m := by
    have later : c n ≤ c (max m n) := mono (Nat.le_max_right m n)
    rw [ends] at later
    exact .of_forall fun _ => (mono (Nat.le_max_left m n)).trans (whole_le.mp later).le

theorem SameLimit.map {f : Listing α → Listing β} (same : SameLimit c c')
    (mono : ∀ l l', l ≤ l' → f l ≤ f l') : SameLimit (fun n => f (c n)) fun n => f (c' n) where
  le n := (same.le n).mono fun _ => mono _ _
  ge n := (same.ge n).mono fun _ => mono _ _

theorem SameLimit.append {d d' : Nat → Listing α} (first : SameLimit c c')
    (second : SameLimit d d') :
    SameLimit (fun n => (c n).append (d n)) fun n => (c' n).append (d' n) where
  le n := ((first.le n).and (second.le n)).mono fun _ le => append_le le.1 le.2
  ge n := ((first.ge n).and (second.ge n)).mono fun _ le => append_le le.1 le.2

theorem SameLimit.flatten {outs outs' : Nat → α → Listing β} (same : SameLimit c c')
    (each : ∀ value, SameLimit (fun n => outs n value) fun n => outs' n value) :
    SameLimit (fun n => ((c n).map (outs n)).flatten) fun n => ((c' n).map (outs' n)).flatten where
  le n := by
    have parts : ∀ᶠ m in atTop, ∀ value ∈ (c n).known, outs n value ≤ outs' m value :=
      (eventually_all_finite (List.finite_toSet _)).mpr fun value _ => (each value).le n
    exact ((same.le n).and parts).mono fun _ le => flatten_map_le le.1 le.2
  ge n := by
    have parts : ∀ᶠ m in atTop, ∀ value ∈ (c' n).known, outs' n value ≤ outs m value :=
      (eventually_all_finite (List.finite_toSet _)).mpr fun value _ => (each value).ge n
    exact ((same.ge n).and parts).mono fun _ le => flatten_map_le le.1 le.2

theorem SameLimit.headed (same : SameLimit c c') {n : Nat} (headed : (c n).isHeaded = true) :
    ∀ᶠ m in atTop, (c' m).isHeaded = true :=
  (same.le n).mono fun _ le => isHeaded_of_le le headed

theorem SameLimit.whole {values : List α} (same : SameLimit c c') {n : Nat}
    (known : c n = whole values) : ∀ᶠ m in atTop, c' m = .whole values := by
  filter_upwards [same.le n] with m le
  rw [known] at le
  exact whole_le.mp le

/-- Wherever both give an element it is the same, and neither ends where the other goes on. -/
def Compatible (c c' : Nat → Listing α) : Prop := ∀ n m, ∃ l, c n ≤ l ∧ c' m ≤ l

end Limit

end Listing

end DemandLex
