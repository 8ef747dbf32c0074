import DemandLex.Proofs.Sequence.Listing
import DemandLex.Proofs.StepFunction.Merge

/-! What is known of a merge when only so much is known of its two sides. A breakpoint is known as soon
as both sides are known to go on behind its edge, or to end there. -/

namespace DemandLex.Listing

open StepFunction (minimise)

universe u
variable {α : Type u} {E A B R T : Type} {compare : E → E → Ordering} {reduce : A → B → R}

theorem headed_cases (l : Listing α) :
    l = unknown ∨ l = whole [] ∨ ∃ value later, l = cons value later := by
  obtain ⟨_ | ⟨value, known⟩, _ | _⟩ := l
  · exact Or.inl rfl
  · exact Or.inr (Or.inl rfl)
  · exact Or.inr (Or.inr ⟨value, ⟨known, false⟩, rfl⟩)
  · exact Or.inr (Or.inr ⟨value, ⟨known, true⟩, rfl⟩)

theorem cons_le_iff {value : α} {l l' : Listing α} :
    cons value l ≤ l' ↔ ∃ later, l' = cons value later ∧ l ≤ later := by
  constructor
  · intro le
    obtain ⟨known, complete⟩ := l'
    obtain ⟨⟨later, same⟩, ends⟩ := le
    cases same
    refine ⟨⟨l.known ++ later, complete⟩, rfl, List.prefix_append .., ?_⟩
    intro whole
    exact (cons_inj.mp (ends whole)).2
  · rintro ⟨later, rfl, le⟩
    exact cons_le le

theorem le_whole (l : Listing α) : l ≤ whole l.known :=
  ⟨List.prefix_refl _, fun complete => by rw [whole, ← complete]⟩

/-- An element that is only known when both of what follows it are known to begin or to end. -/
def behind {β : Type*} {γ : Type*} (l : Listing β) (r : Listing γ) (value : α) (later : Listing α) :
    Listing α :=
  if l.isHeaded && r.isHeaded then cons value later else unknown

theorem behind_le {β γ : Type*} {l l' : Listing β} {r r' : Listing γ} {value : α}
    {later later' : Listing α} (left : l ≤ l') (right : r ≤ r') (le : later ≤ later') :
    behind l r value later ≤ behind l' r' value later' := by
  rw [behind]
  split
  · next both =>
    obtain ⟨leftHeaded, rightHeaded⟩ := Bool.and_eq_true_iff.mp both
    rw [behind, isHeaded_of_le left leftHeaded, isHeaded_of_le right rightHeaded]
    exact cons_le le
  · exact unknown_le

theorem behind_headed {β γ : Type*} {l : Listing β} {r : Listing γ} {value : α} {later : Listing α}
    (left : l.isHeaded = true) (right : r.isHeaded = true) :
    behind l r value later = cons value later := by
  rw [behind, left, right]
  rfl

theorem isHeaded_of_behind {β γ : Type*} {l : Listing β} {r : Listing γ} {value : α}
    {later : Listing α} (headed : (behind l r value later).isHeaded = true) :
    l.isHeaded = true ∧ r.isHeaded = true := by
  rw [behind] at headed
  split at headed
  · next both => exact Bool.and_eq_true_iff.mp both
  · cases headed

theorem cons_le_behind {β γ : Type*} {l l' : Listing β} {r r' : Listing γ} {value : α}
    {later later' : Listing α} (left : l ≤ l') (leftHeaded : l.isHeaded = true) (right : r ≤ r')
    (rightHeaded : r.isHeaded = true) (le : later ≤ later') :
    cons value later ≤ behind l' r' value later' := by
  have known : behind l r value later ≤ behind l' r' value later' := behind_le left right le
  rwa [behind_headed leftHeaded rightHeaded] at known

/-- The walk over two listings of breakpoints, as far as it gets. -/
def overlay (compare : E → E → Ordering) (reduce : A → B → R) :
    A → B → Listing (Breakpoint E A) → Listing (Breakpoint E B) → Listing (Breakpoint E R)
  | _, _, ⟨[], ends⟩, ⟨[], ends'⟩ => ⟨[], ends && ends'⟩
  | _, b, ⟨x :: xs, ends⟩, ⟨[], ends'⟩ =>
    behind (mk xs ends) (mk ([] : List (Breakpoint E B)) ends') ⟨x.edge, reduce x.value b⟩
      (overlay compare reduce x.value b ⟨xs, ends⟩ ⟨[], ends'⟩)
  | a, _, ⟨[], ends⟩, ⟨y :: ys, ends'⟩ =>
    behind (mk ([] : List (Breakpoint E A)) ends) (mk ys ends') ⟨y.edge, reduce a y.value⟩
      (overlay compare reduce a y.value ⟨[], ends⟩ ⟨ys, ends'⟩)
  | a, b, ⟨x :: xs, ends⟩, ⟨y :: ys, ends'⟩ =>
    match compare x.edge y.edge with
    | .lt => behind (mk xs ends) (mk (y :: ys) ends') ⟨x.edge, reduce x.value b⟩
        (overlay compare reduce x.value b ⟨xs, ends⟩ ⟨y :: ys, ends'⟩)
    | .eq => behind (mk xs ends) (mk ys ends') ⟨x.edge, reduce x.value y.value⟩
        (overlay compare reduce x.value y.value ⟨xs, ends⟩ ⟨ys, ends'⟩)
    | .gt => behind (mk (x :: xs) ends) (mk ys ends') ⟨y.edge, reduce a y.value⟩
        (overlay compare reduce a y.value ⟨x :: xs, ends⟩ ⟨ys, ends'⟩)
termination_by _ _ l r => l.known.length + r.known.length

section Overlay
variable {a : A} {b : B} {l l' : Listing (Breakpoint E A)} {r r' : Listing (Breakpoint E B)}

theorem overlay_cons_left {x : Breakpoint E A}
    (smaller : ∀ y ∈ r.known.head?, compare x.edge y.edge = .lt) :
    overlay compare reduce a b (cons x l) r =
      behind l r ⟨x.edge, reduce x.value b⟩ (overlay compare reduce x.value b l r) := by
  obtain ⟨_ | ⟨y, ys⟩, ends⟩ := r
  · rw [cons, overlay]
  · rw [cons, overlay, smaller y rfl]

theorem overlay_cons_right {y : Breakpoint E B}
    (larger : ∀ x ∈ l.known.head?, compare x.edge y.edge = .gt) :
    overlay compare reduce a b l (cons y r) =
      behind l r ⟨y.edge, reduce a y.value⟩ (overlay compare reduce a y.value l r) := by
  obtain ⟨_ | ⟨x, xs⟩, ends⟩ := l
  · rw [cons, overlay]
  · rw [cons, overlay, larger x rfl]

theorem overlay_cons_both {x : Breakpoint E A} {y : Breakpoint E B}
    (same : compare x.edge y.edge = .eq) :
    overlay compare reduce a b (cons x l) (cons y r) =
      behind l r ⟨x.edge, reduce x.value y.value⟩
        (overlay compare reduce x.value y.value l r) := by
  rw [cons, cons, overlay, same]

theorem overlay_nil : overlay compare reduce a b (whole []) (whole []) = whole [] := by
  rw [whole, whole, overlay]
  rfl

theorem isHeaded_of_overlay (headed : (overlay compare reduce a b l r).isHeaded = true) :
    l.isHeaded = true ∧ r.isHeaded = true := by
  obtain ⟨_ | ⟨x, xs⟩, _ | _⟩ := l <;> obtain ⟨_ | ⟨y, ys⟩, _ | _⟩ := r
  all_goals simp_all [overlay, behind, isHeaded, unknown]

theorem overlay_unknown (open' : l = unknown ∨ r = unknown) :
    overlay compare reduce a b l r = unknown := by
  apply eq_unknown_of_isHeaded
  rw [Bool.eq_false_iff]
  intro headed
  obtain ⟨left, right⟩ := isHeaded_of_overlay headed
  rcases open' with rfl | rfl
  · cases left
  · cases right

/-- How two listings meet: one of them may not be known to begin; else both have ended, or the left
one has the next edge, or the right one has it, or both have the same edge. -/
theorem meet (compare : E → E → Ordering) (l : Listing (Breakpoint E A))
    (r : Listing (Breakpoint E B)) :
    (l = unknown ∨ r = unknown) ∨ (l = whole [] ∧ r = whole []) ∨
    (∃ x later, l = cons x later ∧ r.isHeaded = true ∧
      ∀ y ∈ r.known.head?, compare x.edge y.edge = .lt) ∨
    (∃ y later, r = cons y later ∧ l.isHeaded = true ∧
      ∀ x ∈ l.known.head?, compare x.edge y.edge = .gt) ∨
    ∃ x later y later', l = cons x later ∧ r = cons y later' ∧ compare x.edge y.edge = .eq := by
  rcases headed_cases l with rfl | rfl | ⟨x, later, rfl⟩
  · exact Or.inl (Or.inl rfl)
  · rcases headed_cases r with rfl | rfl | ⟨y, later', rfl⟩
    · exact Or.inl (Or.inr rfl)
    · exact Or.inr (Or.inl ⟨rfl, rfl⟩)
    · exact Or.inr (Or.inr (Or.inr (Or.inl ⟨y, later', rfl, rfl, by simp [whole]⟩)))
  · rcases headed_cases r with rfl | rfl | ⟨y, later', rfl⟩
    · exact Or.inl (Or.inr rfl)
    · exact Or.inr (Or.inr (Or.inl ⟨x, later, rfl, rfl, by simp [whole]⟩))
    · cases order : compare x.edge y.edge with
      | lt =>
        refine Or.inr (Or.inr (Or.inl ⟨x, later, rfl, by simp [isHeaded, cons], ?_⟩))
        simpa [cons] using order
      | gt =>
        refine Or.inr (Or.inr (Or.inr (Or.inl ⟨y, later', rfl, by simp [isHeaded, cons], ?_⟩)))
        simpa [cons] using order
      | eq => exact Or.inr (Or.inr (Or.inr (Or.inr ⟨x, later, y, later', rfl, rfl, order⟩)))

theorem head?_of_le {l l' : Listing α} (le : l ≤ l') (headed : l.isHeaded = true) :
    l'.known.head? = l.known.head? := by
  rcases headed_cases l with rfl | rfl | ⟨value, later, rfl⟩
  · cases headed
  · rw [whole_le.mp le]
  · obtain ⟨later', rfl, -⟩ := cons_le_iff.mp le
    rfl

theorem overlay_le (left : l ≤ l') (right : r ≤ r') :
    overlay compare reduce a b l r ≤ overlay compare reduce a b l' r' := by
  generalize size : l.known.length + r.known.length = length
  induction length using Nat.strongRecOn generalizing l l' r r' a b with
  | ind length ih =>
    cases size
    rcases meet compare l r with
      stuck | ⟨rfl, rfl⟩ | ⟨x, later, rfl, headed, smaller⟩ | ⟨y, later, rfl, headed, larger⟩ |
      ⟨x, later, y, later', rfl, rfl, same⟩
    · rw [overlay_unknown stuck]
      exact unknown_le
    · rw [whole_le.mp left, whole_le.mp right]
    · obtain ⟨later', rfl, le⟩ := cons_le_iff.mp left
      rw [overlay_cons_left smaller, overlay_cons_left (head?_of_le right headed ▸ smaller)]
      exact behind_le le right (ih _ (by simp [cons]) le right rfl)
    · obtain ⟨later', rfl, le⟩ := cons_le_iff.mp right
      rw [overlay_cons_right larger, overlay_cons_right (head?_of_le left headed ▸ larger)]
      exact behind_le left le (ih _ (by simp [cons]) left le rfl)
    · obtain ⟨more, rfl, le⟩ := cons_le_iff.mp left
      obtain ⟨more', rfl, le'⟩ := cons_le_iff.mp right
      rw [overlay_cons_both same, overlay_cons_both same]
      exact behind_le le le' (ih _ (by simp [cons]; omega) le le' rfl)

theorem whole_cons (value : α) (values : List α) :
    whole (value :: values) = cons value (whole values) := rfl

theorem behind_whole {β γ : Type*} {value : α} {later : Listing α} {xs : List β} {ys : List γ} :
    behind (whole xs) (whole ys) value later = cons value later := rfl

theorem overlay_whole {xs : List (Breakpoint E A)} {ys : List (Breakpoint E B)} :
    overlay compare reduce a b (whole xs) (whole ys) =
      whole (StepFunction.overlay compare reduce a b xs ys) := by
  fun_induction StepFunction.overlay compare reduce a b xs ys with
  | case1 => exact overlay_nil
  | case2 a b x xs ih =>
    rw [whole_cons, overlay_cons_left (by simp [whole]), ih, behind_whole, whole_cons]
  | case3 a b y ys ih =>
    rw [whole_cons, overlay_cons_right (by simp [whole]), ih, behind_whole, whole_cons]
  | case4 a b x xs y ys order ih =>
    rw [whole_cons, overlay_cons_left (by simpa [whole] using order), ih, behind_whole, whole_cons]
  | case5 a b x xs y ys order ih =>
    rw [whole_cons, whole_cons, overlay_cons_both order, ih, behind_whole, whole_cons]
  | case6 a b x xs y ys order ih =>
    rw [whole_cons y ys, overlay_cons_right (by simpa [whole] using order), ih, behind_whole,
      whole_cons]

theorem behind_swap {β γ : Type*} {l : Listing β} {r : Listing γ} {value : α} {later : Listing α} :
    behind r l value later = behind l r value later := by
  rw [behind, behind, Bool.and_comm]

theorem overlay_swap [Std.OrientedCmp compare] [Std.LawfulEqCmp compare] :
    overlay compare (fun y x => reduce x y) b a r l = overlay compare reduce a b l r := by
  generalize size : l.known.length + r.known.length = length
  induction length using Nat.strongRecOn generalizing l r a b with
  | ind length ih =>
    cases size
    rcases meet compare l r with
      stuck | ⟨rfl, rfl⟩ | ⟨x, later, rfl, headed, smaller⟩ | ⟨y, later, rfl, headed, larger⟩ |
      ⟨x, later, y, later', rfl, rfl, same⟩
    · rw [overlay_unknown stuck, overlay_unknown stuck.symm]
    · rw [overlay_nil, overlay_nil]
    · have larger : ∀ y ∈ r.known.head?, compare y.edge x.edge = .gt :=
        fun y first => Std.OrientedCmp.gt_of_lt (smaller y first)
      rw [overlay_cons_left smaller, overlay_cons_right larger, behind_swap,
        ih _ (by simp [cons]) rfl]
    · have smaller : ∀ x ∈ l.known.head?, compare y.edge x.edge = .lt :=
        fun x first => Std.OrientedCmp.lt_of_gt (larger x first)
      rw [overlay_cons_right larger, overlay_cons_left smaller, behind_swap,
        ih _ (by simp [cons]) rfl]
    · have edges : y.edge = x.edge := (Std.LawfulEqCmp.eq_of_compare same).symm
      rw [overlay_cons_both same, overlay_cons_both (Std.OrientedCmp.eq_symm same), behind_swap,
        ih _ (by simp [cons]; omega) rfl, edges]

end Overlay

section Merge
variable {equal : R → R → Bool} {a : A} {b : B} {l l' : Listing (Breakpoint E A)}
  {r r' : Listing (Breakpoint E B)}

def merge (compare : E → E → Ordering) (equal : R → R → Bool) (reduce : A → B → R) (a : A) (b : B)
    (l : Listing (Breakpoint E A)) (r : Listing (Breakpoint E B)) : Listing (Breakpoint E R) :=
  (overlay compare reduce a b l r).through (minimise equal (reduce a b))

theorem minimise_more {equal : T → T → Bool} {kept : T} (bs later : List (Breakpoint E T)) :
    minimise equal kept bs <+: minimise equal kept (bs ++ later) := by
  fun_induction minimise equal kept bs with
  | case1 => exact List.nil_prefix
  | case2 kept b bs absorbed ih =>
    rw [List.cons_append, minimise, if_pos absorbed]
    exact ih
  | case3 kept b bs different ih =>
    rw [List.cons_append, minimise, if_neg different]
    exact List.cons_prefix_cons.mpr ⟨rfl, ih⟩

theorem merge_le (left : l ≤ l') (right : r ≤ r') :
    merge compare equal reduce a b l r ≤ merge compare equal reduce a b l' r' :=
  through_le minimise_more (overlay_le left right)

theorem merge_whole {f : StepFunction E A} {g : StepFunction E B} :
    merge compare equal reduce f.first g.first (whole f.breakpoints) (whole g.breakpoints) =
      whole (f.merge ⟨compare, equal⟩ reduce g).breakpoints := by
  rw [merge, overlay_whole]
  rfl

theorem merge_swap [Std.OrientedCmp compare] [Std.LawfulEqCmp compare] :
    merge compare equal (fun y x => reduce x y) b a r l = merge compare equal reduce a b l r := by
  rw [merge, merge, overlay_swap]

theorem SameLimit.merge {c c' : Nat → Listing (Breakpoint E A)}
    {d d' : Nat → Listing (Breakpoint E B)} (left : SameLimit c c') (right : SameLimit d d') :
    SameLimit (fun n => Listing.merge compare equal reduce a b (c n) (d n))
      fun n => Listing.merge compare equal reduce a b (c' n) (d' n) where
  le n := ((left.le n).and (right.le n)).mono fun _ le => merge_le le.1 le.2
  ge n := ((left.ge n).and (right.ge n)).mono fun _ le => merge_le le.1 le.2

theorem isHeaded_of_merge (headed : (merge compare equal reduce a b l r).isHeaded = true) :
    l.isHeaded = true ∧ r.isHeaded = true := by
  cases walked : (overlay compare reduce a b l r).isHeaded with
  | true => exact isHeaded_of_overlay walked
  | false =>
    rw [merge, eq_unknown_of_isHeaded walked] at headed
    cases headed

end Merge

section Lookup
variable {key : E} {value found : T} {l l' : Listing (Breakpoint E T)} {b : Breakpoint E T}

/-- The value at a key, once it is known which breakpoint comes behind the key, or that none does. -/
def lookup? (compare : E → E → Ordering) (key : E) (value : T) (l : Listing (Breakpoint E T)) :
    Option T :=
  if l.complete || l.known.any fun b => compare b.edge key == .gt then
    some (StepFunction.valueFrom compare key value l.known)
  else none

theorem lookup?_cons_after (after : compare b.edge key = .gt) :
    lookup? compare key value (cons b l) = some value := by
  simp [lookup?, cons, after, StepFunction.valueFrom]

theorem lookup?_cons_passed (passed : compare b.edge key ≠ .gt) :
    lookup? compare key value (cons b l) = lookup? compare key b.value l := by
  have visited : StepFunction.valueFrom compare key value (b :: l.known) =
      StepFunction.valueFrom compare key b.value l.known :=
    StepFunction.valueFrom_cons_passed passed
  simp [lookup?, cons, passed, visited]

theorem lookup?_whole {bs : List (Breakpoint E T)} :
    lookup? compare key value (whole bs) = some (StepFunction.valueFrom compare key value bs) := rfl

theorem lookup?_of_le (le : l ≤ l') (known : lookup? compare key value l = some found) :
    lookup? compare key value l' = some found := by
  generalize size : l.known.length = length
  induction length generalizing l l' value with
  | zero =>
    rcases headed_cases l with rfl | rfl | ⟨b, later, rfl⟩
    · cases known
    · rwa [whole_le.mp le]
    · cases size
  | succ length ih =>
    rcases headed_cases l with rfl | rfl | ⟨b, later, rfl⟩
    · cases size
    · cases size
    · obtain ⟨later', rfl, rest⟩ := cons_le_iff.mp le
      by_cases after : compare b.edge key = .gt
      · rwa [lookup?_cons_after after] at known ⊢
      · rw [lookup?_cons_passed after] at known ⊢
        exact ih rest known (Nat.succ_injective size)

end Lookup

end DemandLex.Listing
