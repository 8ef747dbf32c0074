import DemandLex.Proofs.Sequence.Effects
import DemandLex.Proofs.StepFunction.Rounds
import DemandLex.Proofs.StepFunction.Walk

/-! What a walk over two streams does for a breakpoint. Behind an edge, the streams that had it are
brought to their next breakpoint, the left one before the right one; then the values in force are
reduced, once. -/

namespace DemandLex

open Effect Producer

variable {ω ν σ τ κ α β E A B R T : Type} {M : Meaning ν}

def Side.Comes (M : Meaning ν) (step : σ → Noted ω (Move ν σ α)) :
    Side σ α → List (Effect ω) → Option (α × σ) → Prop
  | .pending s, effects, r => Producer.Comes M step s effects r
  | .ready value next, effects, r => effects = [] ∧ r = some (value, next)
  | .ended, effects, r => effects = [] ∧ r = none

theorem Side.comes_rested {step : σ → Noted ω (Move ν σ α)} {r r' : Option (α × σ)}
    {effects : List (Effect ω)} : (rested r).Comes M step effects r' ↔ effects = [] ∧ r' = r := by
  cases r <;> exact Iff.rfl

namespace Producer

section Advance
variable {step : σ → Noted ω (Move ν σ α)} {big : κ → Noted ω (Move ν κ β)}
  {place : Side σ α → κ} {effects : List (Effect ω)} {r : Option (β × κ)}

theorem comes_advance {s : σ}
    (notes : ∀ s, (big (place (.pending s))).notes = (step s).notes)
    (runs : ∀ s, (big (place (.pending s))).value = (step s).value.advance place) :
    Comes M big (place (.pending s)) effects r ↔ ∃ before found behind, Comes M step s before found ∧
      Comes M big (place (Side.rested found)) behind r ∧ effects = before ++ behind := by
  constructor
  · intro comes
    generalize origin : place (.pending s) = state at comes
    induction comes generalizing s with
    | yield move | done move =>
      rw [← origin, runs] at move
      cases moved : (step s).value <;> rw [moved] at move <;> cases move
    | skip move later ih =>
      rw [← origin, runs] at move
      rw [← origin, notes]
      rcases advance_eq_skip.mp move with ⟨value, s, moved, rfl⟩ | ⟨s, moved, rfl⟩ | ⟨moved, rfl⟩
      · exact ⟨_, _, _, .yield moved, later, rfl⟩
      · obtain ⟨before, found, behind, comes, rests, rfl⟩ := ih rfl
        exact ⟨_, found, behind, .skip moved comes, rests, (List.append_assoc ..).symm⟩
      · exact ⟨_, _, _, .done moved, later, rfl⟩
    | force move follows later ih =>
      rw [← origin, runs] at move
      rw [← origin, notes]
      obtain ⟨resume, moved, rfl⟩ := advance_eq_force.mp move
      obtain ⟨before, found, behind, comes, rests, rfl⟩ := ih rfl
      exact ⟨_, found, behind, .force moved follows comes, rests,
        (List.append_assoc _ (_ :: before) behind).symm⟩
  · rintro ⟨before, found, behind, comes, rests, rfl⟩
    induction comes with
    | yield moved =>
      rw [← notes]
      exact .skip (by rw [runs, moved]; rfl) rests
    | done moved =>
      rw [← notes]
      exact .skip (by rw [runs, moved]; rfl) rests
    | skip moved later ih =>
      rw [← notes, List.append_assoc]
      exact .skip (by rw [runs, moved]; rfl) (ih rests)
    | force moved follows later ih =>
      rw [← notes, List.append_assoc]
      exact .force (by rw [runs, moved]; rfl) follows (ih rests)

theorem comes_side (big : κ → Noted ω (Move ν κ β)) (place : Side σ α → κ) (side : Side σ α)
    (notes : ∀ s, (big (place (.pending s))).notes = (step s).notes)
    (runs : ∀ s, (big (place (.pending s))).value = (step s).value.advance place) :
    Comes M big (place side) effects r ↔ ∃ before found behind, side.Comes M step before found ∧
      Comes M big (place (Side.rested found)) behind r ∧ effects = before ++ behind := by
  have here (found : Option (α × σ)) : Comes M big (place (Side.rested found)) effects r ↔
      ∃ before found' behind, (Side.rested found).Comes M step before found' ∧
        Comes M big (place (Side.rested found')) behind r ∧ effects = before ++ behind := by
    simp only [Side.comes_rested]
    constructor
    · exact fun comes => ⟨[], found, effects, ⟨rfl, rfl⟩, comes, rfl⟩
    · rintro ⟨_, _, behind, ⟨rfl, rfl⟩, comes, rfl⟩
      exact comes
  cases side with
  | pending s => exact comes_advance notes runs
  | ready value next => exact here (some (value, next))
  | ended => exact here none

end Advance

section Walking
variable {compare : E → E → Ordering} {reduce : A → B → Noted ω R} {a first : A} {b second : B}
  {p : Producer ω ν (Breakpoint E A)} {q : Producer ω ν (Breakpoint E B)}
  {left : Side p.State (Breakpoint E A)} {right : Side q.State (Breakpoint E B)}
  {lr : Option (Breakpoint E A × p.State)} {rr : Option (Breakpoint E B × q.State)}
  {effects : List (Effect ω)} {r : Option (Breakpoint E R × MergeState p.State q.State E A B)}

section Notes

theorem notes_walking_left {s : p.State} {passed : Option E} :
    (walking compare reduce first second p q ⟨.pending s, a, right, b, passed⟩).notes =
      (p.step s).notes := by
  simp only [walking, overlay, Noted.notes_bind, Noted.notes_pure, List.append_nil]

theorem notes_walking_right {s : q.State} {passed : Option E} :
    (walking compare reduce first second p q ⟨.rested lr, a, .pending s, b, passed⟩).notes =
      (q.step s).notes := by
  cases lr <;> simp only [walking, overlay, Side.rested, Noted.notes_bind, Noted.notes_pure,
    List.append_nil]

theorem notes_walking_passed {edge : E} :
    (walking compare reduce first second p q ⟨.rested lr, a, .rested rr, b, some edge⟩).notes =
      (reduce a b).notes := by
  cases lr <;> cases rr <;> simp only [walking, overlay, Side.rested, Noted.notes_bind,
    Noted.notes_pure, List.append_nil]

theorem notes_walking_pass :
    (walking compare reduce first second p q ⟨.rested lr, a, .rested rr, b, none⟩).notes = [] := by
  cases lr <;> cases rr <;> simp only [walking, overlay, Side.rested]
  all_goals generalize MergeState.pass? compare _ = passes
  all_goals cases passes <;> rfl

end Notes

theorem comes_walking {passed : Option E} :
    Comes M (walking compare reduce first second p q) ⟨left, a, right, b, passed⟩ effects r ↔
      ∃ before lr before' rr behind, left.Comes M p.step before lr ∧
        right.Comes M q.step before' rr ∧
        Comes M (walking compare reduce first second p q) ⟨.rested lr, a, .rested rr, b, passed⟩
          behind r ∧ effects = before ++ (before' ++ behind) := by
  have leftRests : Comes M (walking compare reduce first second p q) ⟨left, a, right, b, passed⟩
      effects r ↔ ∃ before lr behind, left.Comes M p.step before lr ∧
        Comes M (walking compare reduce first second p q) ⟨.rested lr, a, right, b, passed⟩
          behind r ∧ effects = before ++ behind :=
    comes_side (walking compare reduce first second p q) (fun side => ⟨side, a, right, b, passed⟩)
      left (fun _ => notes_walking_left) fun _ => walking_left
  have rightRests (lr : Option (Breakpoint E A × p.State)) (effects : List (Effect ω)) :
      Comes M (walking compare reduce first second p q) ⟨.rested lr, a, right, b, passed⟩
        effects r ↔ ∃ before rr behind, right.Comes M q.step before rr ∧
          Comes M (walking compare reduce first second p q) ⟨.rested lr, a, .rested rr, b, passed⟩
            behind r ∧ effects = before ++ behind :=
    comes_side (walking compare reduce first second p q)
      (fun side => ⟨.rested lr, a, side, b, passed⟩) right (fun _ => notes_walking_right)
      fun _ => walking_right
  rw [leftRests]
  constructor
  · rintro ⟨before, lr, _, comes, later, rfl⟩
    obtain ⟨before', rr, behind, comes', rests, rfl⟩ := (rightRests lr _).mp later
    exact ⟨before, lr, before', rr, behind, comes, comes', rests, rfl⟩
  · rintro ⟨before, lr, before', rr, behind, comes, comes', rests, rfl⟩
    exact ⟨before, lr, _, comes, (rightRests lr _).mpr ⟨_, rr, behind, comes', rests, rfl⟩, rfl⟩

/-- Behind an edge the values in force are reduced, once. -/
theorem comes_walking_passed {edge : E} :
    Comes M (walking compare reduce first second p q) ⟨left, a, right, b, some edge⟩ effects r ↔
      ∃ before lr before' rr, left.Comes M p.step before lr ∧ right.Comes M q.step before' rr ∧
        effects = before ++ before' ++ noting (reduce a b).notes ∧
        r = some (⟨edge, silent reduce a b⟩, ⟨.rested lr, a, .rested rr, b, none⟩) := by
  rw [comes_walking]
  simp only [comes_yield walking_passed, notes_walking_passed, List.append_assoc]
  constructor
  · rintro ⟨before, lr, before', rr, _, comes, comes', ⟨rfl, rfl⟩, rfl⟩
    exact ⟨before, lr, before', rr, comes, comes', rfl, rfl⟩
  · rintro ⟨before, lr, before', rr, comes, comes', rfl, rfl⟩
    exact ⟨before, lr, before', rr, _, comes, comes', ⟨rfl, rfl⟩, rfl⟩

theorem comes_walking_pass :
    Comes M (walking compare reduce first second p q) ⟨.rested lr, a, .rested rr, b, none⟩ effects r ↔
      match MergeState.pass? compare ⟨.rested lr, a, .rested rr, b, none⟩ with
      | some next => Comes M (walking compare reduce first second p q) next effects r
      | none => effects = [] ∧ r = none := by
  cases passes : MergeState.pass? compare
    (⟨.rested lr, a, .rested rr, b, none⟩ : MergeState p.State q.State E A B) with
  | some next =>
    rw [comes_skip (by rw [walking_pass, passes]), notes_walking_pass]
    simp
  | none =>
    rw [comes_done (by rw [walking_pass, passes]), notes_walking_pass]
    rfl

theorem comes_walking_smaller {x : Breakpoint E A} {next : p.State}
    (smaller : ∀ y later, rr = some (y, later) → compare x.edge y.edge = .lt) :
    Comes M (walking compare reduce first second p q)
        ⟨.rested (some (x, next)), a, .rested rr, b, none⟩ effects r ↔
      ∃ before lr, Comes M p.step next before lr ∧
        effects = before ++ noting (reduce x.value b).notes ∧
        r = some (⟨x.edge, silent reduce x.value b⟩,
          ⟨.rested lr, x.value, .rested rr, b, none⟩) := by
  have passes : MergeState.pass? compare ⟨.rested (some (x, next)), a, .rested rr, b, none⟩ =
      some (⟨.pending next, x.value, .rested rr, b, some x.edge⟩ :
        MergeState p.State q.State E A B) := by
    rcases rr with _ | ⟨y, later⟩
    · rfl
    · simp only [MergeState.pass?, Side.rested, smaller y later rfl, MergeState.takeLeft]
  simp only [comes_walking_pass, passes, comes_walking_passed, Side.comes_rested]
  constructor
  · rintro ⟨before, lr, _, _, comes, ⟨rfl, rfl⟩, rfl, rfl⟩
    exact ⟨before, lr, comes, by rw [List.append_nil], rfl⟩
  · rintro ⟨before, lr, comes, rfl, rfl⟩
    exact ⟨before, lr, [], _, comes, ⟨rfl, rfl⟩, by rw [List.append_nil], rfl⟩

theorem comes_walking_larger {y : Breakpoint E B} {later : q.State}
    (larger : ∀ x next, lr = some (x, next) → compare x.edge y.edge = .gt) :
    Comes M (walking compare reduce first second p q)
        ⟨.rested lr, a, .rested (some (y, later)), b, none⟩ effects r ↔
      ∃ before rr, Comes M q.step later before rr ∧
        effects = before ++ noting (reduce a y.value).notes ∧
        r = some (⟨y.edge, silent reduce a y.value⟩,
          ⟨.rested lr, a, .rested rr, y.value, none⟩) := by
  have passes : MergeState.pass? compare ⟨.rested lr, a, .rested (some (y, later)), b, none⟩ =
      some (⟨.rested lr, a, .pending later, y.value, some y.edge⟩ :
        MergeState p.State q.State E A B) := by
    rcases lr with _ | ⟨x, next⟩
    · rfl
    · simp only [MergeState.pass?, Side.rested, larger x next rfl, MergeState.takeRight]
  simp only [comes_walking_pass, passes, comes_walking_passed, Side.comes_rested]
  constructor
  · rintro ⟨_, _, before, rr, ⟨rfl, rfl⟩, comes, rfl, rfl⟩
    exact ⟨before, rr, comes, rfl, rfl⟩
  · rintro ⟨before, rr, comes, rfl, rfl⟩
    exact ⟨[], _, before, rr, ⟨rfl, rfl⟩, comes, rfl, rfl⟩

theorem comes_walking_both {x : Breakpoint E A} {next : p.State} {y : Breakpoint E B}
    {later : q.State} (same : compare x.edge y.edge = .eq) :
    Comes M (walking compare reduce first second p q)
        ⟨.rested (some (x, next)), a, .rested (some (y, later)), b, none⟩ effects r ↔
      ∃ before lr before' rr, Comes M p.step next before lr ∧ Comes M q.step later before' rr ∧
        effects = before ++ before' ++ noting (reduce x.value y.value).notes ∧
        r = some (⟨x.edge, silent reduce x.value y.value⟩,
          ⟨.rested lr, x.value, .rested rr, y.value, none⟩) := by
  have passes : MergeState.pass? compare
      ⟨.rested (some (x, next)), a, .rested (some (y, later)), b, none⟩ =
      some (⟨.pending next, x.value, .pending later, y.value, some x.edge⟩ :
        MergeState p.State q.State E A B) := by
    simp only [MergeState.pass?, Side.rested, same, MergeState.takeLeft, MergeState.takeRight]
  simp only [comes_walking_pass, passes, comes_walking_passed, Side.Comes]

end Walking

section Rounds
variable {M : Meaning (Breakpoint E T)} {compare : E → E → Ordering} {reduce : T → T → Noted ω T}
  {a b first second : T} {s₀ t₀ s t : Sequence (Breakpoint E T)} {x y : Cell (Breakpoint E T)}
  {effects : List (Effect ω)}
  {r : Option (Breakpoint E T × MergeState (Reading (Breakpoint E T)) (Reading (Breakpoint E T)) E T T)}

def between (s t : Sequence (Breakpoint E T)) (a b : T) :
    MergeState (Reading (Breakpoint E T)) (Reading (Breakpoint E T)) E T T :=
  ⟨.rested (readingAt s), a, .rested (readingAt t), b, none⟩

theorem readingAt_some {v : Breakpoint E T} {next : Reading (Breakpoint E T)}
    (found : readingAt t = some (v, next)) : ∃ y, t = some y ∧ y.value = v := by
  obtain ⟨y, rfl, given⟩ := Option.map_eq_some_iff.mp found
  cases given
  exact ⟨y, rfl, rfl⟩

theorem comes_between_left
    (smaller : ∀ y, t = some y → compare x.value.edge y.value.edge = .lt) :
    Comes M (walking compare reduce first second (ofSequence s₀) (ofSequence t₀))
        (between (some x) t a b) effects r ↔
      ∃ s', M.after x.node = some s' ∧
        effects = [.look x.node] ++ noting (reduce x.value.value b).notes ∧
        r = some (⟨x.value.edge, silent reduce x.value.value b⟩, between s' t x.value.value b) := by
  refine Iff.trans (comes_walking_smaller (p := ofSequence s₀) (q := ofSequence t₀) ?_) ?_
  · intro v later found
    obtain ⟨y, rfl, rfl⟩ := readingAt_some found
    exact smaller y rfl
  · constructor
    · rintro ⟨_, _, comes, rfl, rfl⟩
      obtain ⟨s', follows, rfl, rfl⟩ := comes_reading_after.mp comes
      exact ⟨s', follows, rfl, rfl⟩
    · rintro ⟨s', follows, rfl, rfl⟩
      exact ⟨_, _, comes_reading_after.mpr ⟨s', follows, rfl, rfl⟩, rfl, rfl⟩

theorem comes_between_right
    (larger : ∀ x, s = some x → compare x.value.edge y.value.edge = .gt) :
    Comes M (walking compare reduce first second (ofSequence s₀) (ofSequence t₀))
        (between s (some y) a b) effects r ↔
      ∃ t', M.after y.node = some t' ∧
        effects = [.look y.node] ++ noting (reduce a y.value.value).notes ∧
        r = some (⟨y.value.edge, silent reduce a y.value.value⟩, between s t' a y.value.value) := by
  refine Iff.trans (comes_walking_larger (p := ofSequence s₀) (q := ofSequence t₀) ?_) ?_
  · intro v later found
    obtain ⟨x, rfl, rfl⟩ := readingAt_some found
    exact larger x rfl
  · constructor
    · rintro ⟨_, _, comes, rfl, rfl⟩
      obtain ⟨t', follows, rfl, rfl⟩ := comes_reading_after.mp comes
      exact ⟨t', follows, rfl, rfl⟩
    · rintro ⟨t', follows, rfl, rfl⟩
      exact ⟨_, _, comes_reading_after.mpr ⟨t', follows, rfl, rfl⟩, rfl, rfl⟩

theorem comes_between_both (same : compare x.value.edge y.value.edge = .eq) :
    Comes M (walking compare reduce first second (ofSequence s₀) (ofSequence t₀))
        (between (some x) (some y) a b) effects r ↔
      ∃ s' t', M.after x.node = some s' ∧ M.after y.node = some t' ∧
        effects = [.look x.node, .look y.node] ++
          noting (reduce x.value.value y.value.value).notes ∧
        r = some (⟨x.value.edge, silent reduce x.value.value y.value.value⟩,
          between s' t' x.value.value y.value.value) := by
  refine Iff.trans (comes_walking_both (p := ofSequence s₀) (q := ofSequence t₀) same) ?_
  constructor
  · rintro ⟨_, _, _, _, comes, comes', rfl, rfl⟩
    obtain ⟨s', follows, rfl, rfl⟩ := comes_reading_after.mp comes
    obtain ⟨t', follows', rfl, rfl⟩ := comes_reading_after.mp comes'
    exact ⟨s', t', follows, follows', rfl, rfl⟩
  · rintro ⟨s', t', follows, follows', rfl, rfl⟩
    exact ⟨_, _, _, _, comes_reading_after.mpr ⟨s', follows, rfl, rfl⟩,
      comes_reading_after.mpr ⟨t', follows', rfl, rfl⟩, rfl, rfl⟩

theorem comes_between_none :
    Comes M (walking compare reduce first second (ofSequence s₀) (ofSequence t₀))
      (between none none a b) effects r ↔ effects = [] ∧ r = none :=
  comes_walking_pass (p := ofSequence s₀) (q := ofSequence t₀)

/-- Between two sequences, the walk does a round, or has come to the end of both. -/
theorem comes_between :
    Comes M (walking compare reduce first second (ofSequence s₀) (ofSequence t₀))
        (between s t a b) effects r ↔
      (s = none ∧ t = none ∧ effects = [] ∧ r = none) ∨ ∃ round s' t',
        M.Rounds compare s t [round] s' t' ∧
        effects = looking round.cells ++
          noting (reduce (round.leftValue a) (round.rightValue b)).notes ∧
        r = some (⟨round.edge, silent reduce (round.leftValue a) (round.rightValue b)⟩,
          between s' t' (round.leftValue a) (round.rightValue b)) := by
  constructor
  · intro comes
    rcases s.next_round compare t with ⟨x, rfl, smaller⟩ | ⟨y, rfl, larger⟩ |
      ⟨x, y, rfl, rfl, same⟩ | ⟨rfl, rfl⟩
    · obtain ⟨s', follows, rfl, rfl⟩ := (comes_between_left smaller).mp comes
      exact Or.inr ⟨.left x, s', t, .left smaller follows .nil, rfl, rfl⟩
    · obtain ⟨t', follows, rfl, rfl⟩ := (comes_between_right larger).mp comes
      exact Or.inr ⟨.right y, s, t', .right larger follows .nil, rfl, rfl⟩
    · obtain ⟨s', t', follows, follows', rfl, rfl⟩ := (comes_between_both same).mp comes
      exact Or.inr ⟨.both x y, s', t', .both same follows follows' .nil, rfl, rfl⟩
    · obtain ⟨rfl, rfl⟩ := comes_between_none.mp comes
      exact Or.inl ⟨rfl, rfl, rfl, rfl⟩
  · rintro (⟨rfl, rfl, rfl, rfl⟩ | ⟨round, s', t', rounds, rfl, rfl⟩)
    · exact comes_between_none.mpr ⟨rfl, rfl⟩
    · cases rounds with
      | left smaller follows later =>
        cases later
        exact (comes_between_left smaller).mpr ⟨_, follows, rfl, rfl⟩
      | right larger follows later =>
        cases later
        exact (comes_between_right larger).mpr ⟨_, follows, rfl, rfl⟩
      | both same follows follows' later =>
        cases later
        exact (comes_between_both same).mpr ⟨_, _, follows, follows', rfl, rfl⟩

theorem comes_walking_start :
    Comes M (walking compare reduce first second (ofSequence s₀) (ofSequence t₀))
        ⟨.pending (.here s), a, .pending (.here t), b, none⟩ effects r ↔
      Comes M (walking compare reduce first second (ofSequence s₀) (ofSequence t₀))
        (between s t a b) effects r := by
  refine Iff.trans (comes_walking (p := ofSequence s₀) (q := ofSequence t₀)) ?_
  constructor
  · rintro ⟨_, _, _, _, behind, comes, comes', later, rfl⟩
    obtain ⟨rfl, rfl⟩ := comes_reading_here.mp comes
    obtain ⟨rfl, rfl⟩ := comes_reading_here.mp comes'
    exact later
  · intro later
    exact ⟨[], _, [], _, effects, comes_reading_here.mpr ⟨rfl, rfl⟩,
      comes_reading_here.mpr ⟨rfl, rfl⟩, later, rfl⟩

end Rounds

end Producer

end DemandLex
