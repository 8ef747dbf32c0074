import DemandLex.Proofs.StepFunction.Merge
import DemandLex.Proofs.StepFunction.Side

/-! The walk over two streams of breakpoints is the walk over the two lists they give, and as far as
it has come the walk over what it has read of them. -/

namespace DemandLex

def silent {ω A B R : Type} (f : A → B → Noted ω R) (a : A) (b : B) : R := (f a b).value

namespace Producer

variable {ω ν E A B R : Type} {M : Meaning ν} {compare : E → E → Ordering}
  {reduce : A → B → Noted ω R} {a first : A} {b second : B} {p : Producer ω ν (Breakpoint E A)} {q : Producer ω ν (Breakpoint E B)}
  {left : Side p.State (Breakpoint E A)} {right : Side q.State (Breakpoint E B)}
  {lr : Option (Breakpoint E A × p.State)} {rr : Option (Breakpoint E B × q.State)}

def walking (compare : E → E → Ordering) (reduce : A → B → Noted ω R) (first : A) (second : B)
    (p : Producer ω ν (Breakpoint E A)) (q : Producer ω ν (Breakpoint E B)) :
    MergeState p.State q.State E A B →
      Noted ω (Move ν (MergeState p.State q.State E A B) (Breakpoint E R)) :=
  (overlay compare reduce first second p q).step

theorem walking_left {s : p.State} {passed : Option E} :
    (walking compare reduce first second p q ⟨.pending s, a, right, b, passed⟩).value =
      (p.step s).value.advance fun side => ⟨side, a, right, b, passed⟩ := rfl

theorem walking_right {s : q.State} {passed : Option E} :
    (walking compare reduce first second p q ⟨.rested lr, a, .pending s, b, passed⟩).value =
      (q.step s).value.advance fun side => ⟨.rested lr, a, side, b, passed⟩ := by
  cases lr <;> rfl

theorem walking_passed {edge : E} :
    (walking compare reduce first second p q ⟨.rested lr, a, .rested rr, b, some edge⟩).value =
      .yield ⟨edge, silent reduce a b⟩ ⟨.rested lr, a, .rested rr, b, none⟩ := by
  cases lr <;> cases rr <;> rfl

theorem walking_pass :
    (walking compare reduce first second p q ⟨.rested lr, a, .rested rr, b, none⟩).value =
      match MergeState.pass? compare
        (⟨.rested lr, a, .rested rr, b, none⟩ : MergeState p.State q.State E A B) with
      | some next => .skip next
      | none => .done := by
  cases lr <;> cases rr <;> simp only [walking, overlay, Side.rested]
  all_goals generalize MergeState.pass? compare _ = passes
  all_goals cases passes <;> rfl

/-- Before anything else both sides are brought to rest. -/
theorem reaches_overlay {passed : Option E}
    {r : Option (Breakpoint E R × MergeState p.State q.State E A B)} :
    Reaches M (walking compare reduce first second p q) ⟨left, a, right, b, passed⟩ r ↔
      ∃ lr rr, left.Reaches M p.step lr ∧ right.Reaches M q.step rr ∧
        Reaches M (walking compare reduce first second p q)
          ⟨.rested lr, a, .rested rr, b, passed⟩ r := by
  have leftRests := reaches_side (M := M) (r := r) (walking compare reduce first second p q)
    (fun side => ⟨side, a, right, b, passed⟩) left fun _ => walking_left
  have rightRests (lr : Option (Breakpoint E A × p.State)) :=
    reaches_side (M := M) (r := r) (walking compare reduce first second p q)
      (fun side => ⟨.rested lr, a, side, b, passed⟩) right fun _ => walking_right
  constructor
  · intro reached
    obtain ⟨lr, before, behind⟩ := leftRests.mp reached
    obtain ⟨rr, before', behind'⟩ := (rightRests lr).mp behind
    exact ⟨lr, rr, before, before', behind'⟩
  · intro found
    obtain ⟨lr, rr, before, before', behind⟩ := found
    exact leftRests.mpr ⟨lr, before, (rightRests lr).mpr ⟨rr, before', behind⟩⟩

theorem reaches_passed {edge : E}
    {r : Option (Breakpoint E R × MergeState p.State q.State E A B)} :
    Reaches M (walking compare reduce first second p q) ⟨left, a, right, b, some edge⟩ r ↔
      ∃ lr rr, left.Reaches M p.step lr ∧ right.Reaches M q.step rr ∧
        r = some (⟨edge, silent reduce a b⟩, ⟨.rested lr, a, .rested rr, b, none⟩) := by
  rw [reaches_overlay]
  simp only [reaches_yield walking_passed]

/-- At rest the walk passes an edge, or has come to the end of both streams. -/
theorem reaches_pass {r : Option (Breakpoint E R × MergeState p.State q.State E A B)} :
    Reaches M (walking compare reduce first second p q) ⟨.rested lr, a, .rested rr, b, none⟩ r ↔
      match MergeState.pass? compare ⟨.rested lr, a, .rested rr, b, none⟩ with
      | some next => Reaches M (walking compare reduce first second p q) next r
      | none => r = none := by
  cases passes : MergeState.pass? compare
    (⟨.rested lr, a, .rested rr, b, none⟩ : MergeState p.State q.State E A B) with
  | some next => exact reaches_skip (by rw [walking_pass, passes])
  | none => exact reaches_done (by rw [walking_pass, passes])

theorem pass?_cases (compare : E → E → Ordering) (a : A) (b : B)
    (lr : Option (Breakpoint E A × p.State)) (rr : Option (Breakpoint E B × q.State)) :
    (∃ x next, lr = some (x, next) ∧
      (∀ y later, rr = some (y, later) → compare x.edge y.edge = .lt) ∧
      MergeState.pass? compare ⟨.rested lr, a, .rested rr, b, none⟩ =
        some ⟨.pending next, x.value, .rested rr, b, some x.edge⟩) ∨
    (∃ y later, rr = some (y, later) ∧
      (∀ x next, lr = some (x, next) → compare x.edge y.edge = .gt) ∧
      MergeState.pass? compare ⟨.rested lr, a, .rested rr, b, none⟩ =
        some ⟨.rested lr, a, .pending later, y.value, some y.edge⟩) ∨
    (∃ x next y later, lr = some (x, next) ∧ rr = some (y, later) ∧
      compare x.edge y.edge = .eq ∧
      MergeState.pass? compare ⟨.rested lr, a, .rested rr, b, none⟩ =
        some ⟨.pending next, x.value, .pending later, y.value, some x.edge⟩) ∨
    (lr = none ∧ rr = none ∧
      MergeState.pass? compare ⟨.rested lr, a, .rested rr, b, none⟩ = none) := by
  rcases lr with _ | ⟨x, next⟩ <;> rcases rr with _ | ⟨y, later⟩
  · exact Or.inr (Or.inr (Or.inr ⟨rfl, rfl, rfl⟩))
  · exact Or.inr (Or.inl ⟨y, later, rfl, by simp, rfl⟩)
  · exact Or.inl ⟨x, next, rfl, by simp, rfl⟩
  · cases order : compare x.edge y.edge with
    | lt => exact Or.inl ⟨x, next, rfl, by simp_all, by
        simp only [MergeState.pass?, Side.rested, order, MergeState.takeLeft]⟩
    | gt => exact Or.inr (Or.inl ⟨y, later, rfl, by simp_all, by
        simp only [MergeState.pass?, Side.rested, order, MergeState.takeRight]⟩)
    | eq => exact Or.inr (Or.inr (Or.inl ⟨x, next, y, later, rfl, rfl, order, by
        simp only [MergeState.pass?, Side.rested, order, MergeState.takeLeft,
          MergeState.takeRight]⟩))

theorem reaches_of_pass {next : MergeState p.State q.State E A B}
    {r : Option (Breakpoint E R × MergeState p.State q.State E A B)}
    (leftRests : left.Reaches M p.step lr) (rightRests : right.Reaches M q.step rr)
    (passes : MergeState.pass? compare ⟨.rested lr, a, .rested rr, b, none⟩ = some next)
    (reached : Reaches M (walking compare reduce first second p q) next r) :
    Reaches M (walking compare reduce first second p q) ⟨left, a, right, b, none⟩ r := by
  refine reaches_overlay.mpr ⟨lr, rr, leftRests, rightRests, reaches_pass.mpr ?_⟩
  rw [passes]
  exact reached

/-- A round of the walk: the sides come to rest, the next edge is passed on the side that has it, or on
both, and what is behind it comes to rest in turn. Without an edge both streams have ended. -/
theorem reaches_walking_cases {r : Option (Breakpoint E R × MergeState p.State q.State E A B)}
    (reached : Reaches M (walking compare reduce first second p q) ⟨left, a, right, b, none⟩ r) :
    ∃ lr rr, left.Reaches M p.step lr ∧ right.Reaches M q.step rr ∧
      ((∃ x next lr', lr = some (x, next) ∧
        (∀ y later, rr = some (y, later) → compare x.edge y.edge = .lt) ∧
        (Side.pending next).Reaches M p.step lr' ∧
        r = some (⟨x.edge, silent reduce x.value b⟩,
          ⟨.rested lr', x.value, .rested rr, b, none⟩)) ∨
      (∃ y later rr', rr = some (y, later) ∧
        (∀ x next, lr = some (x, next) → compare x.edge y.edge = .gt) ∧
        (Side.pending later).Reaches M q.step rr' ∧
        r = some (⟨y.edge, silent reduce a y.value⟩,
          ⟨.rested lr, a, .rested rr', y.value, none⟩)) ∨
      (∃ x next lr' y later rr', lr = some (x, next) ∧ rr = some (y, later) ∧
        compare x.edge y.edge = .eq ∧ (Side.pending next).Reaches M p.step lr' ∧
        (Side.pending later).Reaches M q.step rr' ∧
        r = some (⟨x.edge, silent reduce x.value y.value⟩,
          ⟨.rested lr', x.value, .rested rr', y.value, none⟩)) ∨
      (lr = none ∧ rr = none ∧ r = none)) := by
  obtain ⟨lr, rr, leftRests, rightRests, rests⟩ := reaches_overlay.mp reached
  refine ⟨lr, rr, leftRests, rightRests, ?_⟩
  have passed := reaches_pass.mp rests
  rcases pass?_cases compare a b lr rr with
    ⟨x, next, here, smaller, passes⟩ | ⟨y, later, here, larger, passes⟩ |
    ⟨x, next, y, later, here, here', same, passes⟩ | ⟨ended, ended', stops⟩
  · rw [passes] at passed
    obtain ⟨lr', rr', rests, kept, found⟩ := reaches_passed.mp passed
    cases Side.reaches_rested.mp kept
    exact .inl ⟨x, next, lr', here, smaller, rests, found⟩
  · rw [passes] at passed
    obtain ⟨lr', rr', kept, rests, found⟩ := reaches_passed.mp passed
    cases Side.reaches_rested.mp kept
    exact .inr (.inl ⟨y, later, rr', here, larger, rests, found⟩)
  · rw [passes] at passed
    obtain ⟨lr', rr', rests, rests', found⟩ := reaches_passed.mp passed
    exact .inr (.inr (.inl ⟨x, next, lr', y, later, rr', here, here', same, rests, rests', found⟩))
  · rw [stops] at passed
    exact .inr (.inr (.inr ⟨ended, ended', passed⟩))

theorem gives_passed {edge : E} {xs : List (Breakpoint E A)} {ys : List (Breakpoint E B)}
    {zs : List (Breakpoint E R)} (leftGives : left.Gives M p.step xs)
    (rightGives : right.Gives M q.step ys)
    (later : ∀ lr rr, (Side.rested lr).Gives M p.step xs → (Side.rested rr).Gives M q.step ys →
      Gives M (walking compare reduce first second p q) ⟨.rested lr, a, .rested rr, b, none⟩ zs) :
    Gives M (walking compare reduce first second p q) ⟨left, a, right, b, some edge⟩
      (⟨edge, silent reduce a b⟩ :: zs) := by
  obtain ⟨lr, leftRests⟩ := leftGives.reaches
  obtain ⟨rr, rightRests⟩ := rightGives.reaches
  exact gives_cons.mpr ⟨_, reaches_passed.mpr ⟨lr, rr, leftRests, rightRests, rfl⟩,
    later lr rr (leftGives.rested leftRests) (rightGives.rested rightRests)⟩

theorem gives_walking {xs : List (Breakpoint E A)} {ys : List (Breakpoint E B)}
    (leftGives : left.Gives M p.step xs) (rightGives : right.Gives M q.step ys) :
    Gives M (walking compare reduce first second p q) ⟨left, a, right, b, none⟩
      (StepFunction.overlay compare (silent reduce) a b xs ys) := by
  generalize size : xs.length + ys.length = length
  -- Each round takes one breakpoint from a side, or one from both.
  induction length using Nat.strongRecOn generalizing left right a b xs ys with
  | ind length ih =>
    cases size
    obtain ⟨lr, leftRests⟩ := leftGives.reaches
    obtain ⟨rr, rightRests⟩ := rightGives.reaches
    have leftShows := leftGives.shows leftRests
    have rightShows := rightGives.shows rightRests
    rcases pass?_cases compare a b lr rr with
      ⟨x, next, rfl, smaller, passes⟩ | ⟨y, next, rfl, larger, passes⟩ |
      ⟨x, next, y, next', rfl, rfl, same, passes⟩ | ⟨rfl, rfl, stops⟩
    · obtain ⟨xs, rfl, gives⟩ := leftShows
      rw [StepFunction.overlay_cons_left (rightShows.head smaller)]
      refine (gives_passed (Side.gives_pending.mpr gives) (rightGives.rested rightRests) ?_).congr
        fun r => reaches_of_pass leftRests rightRests passes
      exact fun lr rr leftGives rightGives =>
        ih (xs.length + ys.length) (by simp) leftGives rightGives rfl
    · obtain ⟨ys, rfl, gives⟩ := rightShows
      rw [StepFunction.overlay_cons_right (leftShows.head larger)]
      refine (gives_passed (leftGives.rested leftRests) (Side.gives_pending.mpr gives) ?_).congr
        fun r => reaches_of_pass leftRests rightRests passes
      exact fun lr rr leftGives rightGives =>
        ih (xs.length + ys.length) (by simp) leftGives rightGives rfl
    · obtain ⟨xs, rfl, gives⟩ := leftShows
      obtain ⟨ys, rfl, gives'⟩ := rightShows
      rw [StepFunction.overlay_cons_both same]
      refine (gives_passed (Side.gives_pending.mpr gives) (Side.gives_pending.mpr gives') ?_).congr
        fun r => reaches_of_pass leftRests rightRests passes
      exact fun lr rr leftGives rightGives =>
        ih (xs.length + ys.length) (by simp; omega) leftGives rightGives rfl
    · cases leftShows
      cases rightShows
      rw [StepFunction.overlay]
      refine gives_nil.mpr (reaches_overlay.mpr
        ⟨none, none, leftRests, rightRests, reaches_pass.mpr ?_⟩)
      rw [stops]

theorem starts_walking {zs : List (Breakpoint E R)} {last : MergeState p.State q.State E A B}
    (started : Starts M (walking compare reduce first second p q) ⟨left, a, right, b, none⟩ zs last) :
    ∃ xs ys, left.Begins M p.step xs ∧ right.Begins M q.step ys ∧
      zs = StepFunction.overlay compare (silent reduce) a b xs ys := by
  induction zs generalizing left right a b with
  | nil => exact ⟨[], [], trivial, trivial, by rw [StepFunction.overlay]⟩
  | cons z zs ih =>
    cases started with
    | cons reached later =>
      obtain ⟨lr, rr, leftRests, rightRests, round⟩ := reaches_walking_cases reached
      rcases round with
        ⟨x, next, lr', rfl, smaller, nextRests, found⟩ | ⟨y, next, rr', rfl, larger, nextRests, found⟩ |
        ⟨x, next, lr', y, next', rr', rfl, rfl, same, nextRests, nextRests', found⟩ | ⟨-, -, found⟩
      · cases found
        obtain ⟨xs, ys, leftBegins, rightBegins, rfl⟩ := ih later
        obtain ⟨last, starts⟩ := (leftBegins.of_rested nextRests).starts
        refine ⟨x :: xs, ys, ⟨next, last, leftRests, starts⟩, rightBegins.of_rested rightRests, ?_⟩
        rw [StepFunction.overlay_cons_left (rightBegins.head smaller)]
      · cases found
        obtain ⟨xs, ys, leftBegins, rightBegins, rfl⟩ := ih later
        obtain ⟨last, starts⟩ := (rightBegins.of_rested nextRests).starts
        refine ⟨xs, y :: ys, leftBegins.of_rested leftRests, ⟨next, last, rightRests, starts⟩, ?_⟩
        rw [StepFunction.overlay_cons_right (leftBegins.head larger)]
      · cases found
        obtain ⟨xs, ys, leftBegins, rightBegins, rfl⟩ := ih later
        obtain ⟨last, starts⟩ := (leftBegins.of_rested nextRests).starts
        obtain ⟨last', starts'⟩ := (rightBegins.of_rested nextRests').starts
        refine ⟨x :: xs, y :: ys, ⟨next, last, leftRests, starts⟩,
          ⟨next', last', rightRests, starts'⟩, ?_⟩
        rw [StepFunction.overlay_cons_both same]
      · cases found

theorem grounded_walking {bound : Nat} {sizes : Nat → Nat} {m : MergeState p.State q.State E A B}
    (leftGrounded : m.left.Grounded bound p.step sizes)
    (rightGrounded : m.right.Grounded bound q.step sizes) :
    Grounded bound (walking compare reduce first second p q) sizes m := by
  refine ⟨fun sizes m => m.left.Grounded bound p.step sizes ∧ m.right.Grounded bound q.step sizes,
    ⟨leftGrounded, rightGrounded⟩, ?_⟩
  intro sizes m found
  obtain ⟨left, a, right, b, passed⟩ := m
  obtain ⟨leftGrounded, rightGrounded⟩ := found
  dsimp only at leftGrounded rightGrounded
  rcases left.pending_or_rested with ⟨s, rfl⟩ | ⟨lr, rfl⟩
  · rw [walking_left]
    exact Side.keeps_advance leftGrounded fun sizes' more side inside =>
      ⟨inside, rightGrounded.grow more⟩
  rcases right.pending_or_rested with ⟨s, rfl⟩ | ⟨rr, rfl⟩
  · rw [walking_right]
    exact Side.keeps_advance rightGrounded fun sizes' more side inside =>
      ⟨leftGrounded.grow more, inside⟩
  cases passed with
  | some edge =>
    rw [walking_passed]
    exact ⟨leftGrounded, rightGrounded⟩
  | none =>
    rw [walking_pass]
    rcases pass?_cases compare a b lr rr with
      ⟨x, next, rfl, -, passes⟩ | ⟨y, next, rfl, -, passes⟩ |
      ⟨x, next, y, next', rfl, rfl, -, passes⟩ | ⟨rfl, rfl, passes⟩
    all_goals rw [passes]
    · exact ⟨leftGrounded, rightGrounded⟩
    · exact ⟨leftGrounded, rightGrounded⟩
    · exact ⟨leftGrounded, rightGrounded⟩
    · exact trivial

end Producer

end DemandLex
