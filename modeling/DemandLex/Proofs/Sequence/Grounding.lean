import DemandLex.Proofs.Sequence.Operators

/-! The operators on producers ask for nothing that their sources and runs do not ask for. -/

namespace DemandLex.Producer

variable {ω ν σ τ ρ α β : Type} {bound : Nat} {sizes : Nat → Nat}

/-- A producer whose moves come from those of another one is grounded where the other one is. -/
theorem Grounded.of_source {step : σ → Noted ω (Move ν σ α)} {step' : ρ → Noted ω (Move ν ρ β)}
    (source : ρ → σ)
    (moves : ∀ sizes t, (step (source t)).value.Keeps bound (Grounded bound step) sizes →
      (step' t).value.Keeps bound (fun sizes t => Grounded bound step sizes (source t)) sizes)
    {t : ρ} (grounded : Grounded bound step sizes (source t)) : Grounded bound step' sizes t :=
  ⟨fun sizes t => Grounded bound step sizes (source t), grounded,
    fun sizes t inside => moves sizes t inside.keeps⟩

section Cut
variable {p : Producer ω ν α} {s : p.State}

theorem grounded_takeWhile {keep : α → Noted ω Bool} (grounded : Grounded bound p.step sizes s) :
    Grounded bound (p.takeWhile keep).step sizes s := by
  refine Grounded.of_source (fun s => s) ?_ grounded
  intro sizes s keeps
  cases move : (p.step s).value with
  | yield value next =>
    rw [move] at keeps
    cases kept : (keep value).value with
    | true => simpa [takeWhile, move, kept, Move.Keeps] using keeps
    | false => simp [takeWhile, move, kept, Move.Keeps]
  | skip | force =>
    rw [move] at keeps
    simpa [takeWhile, move, Move.Keeps] using keeps
  | done => simp [takeWhile, move, Move.Keeps]

theorem grounded_take {count left : Nat} (grounded : Grounded bound p.step sizes s) :
    Grounded bound (p.take count).step sizes (left, s) := by
  refine Grounded.of_source (fun t : Nat × p.State => t.2) ?_ grounded
  rintro sizes ⟨left, s⟩ keeps
  cases left with
  | zero => exact trivial
  | succ left =>
    cases move : (p.step s).value with
    | yield | skip | force =>
      rw [move] at keeps
      simpa [take, move, Move.lift, Move.Keeps] using keeps
    | done => simp [take, move, Move.lift, Move.Keeps]

end Cut

section Lift

theorem Move.Keeps.lift {place : σ → τ} {Inv : (Nat → Nat) → τ → Prop} {move : Move ν σ α}
    (keeps : move.Keeps bound (fun sizes s => Inv sizes (place s)) sizes) :
    (move.lift place).Keeps bound Inv sizes := by
  cases move <;> exact keeps

theorem alone_play {step : σ → Noted ω (Option (α × σ))} (s : σ) (node : Node)
    (resume : Sequence ν → σ) : (play step s).value ≠ .force node resume := by
  have alone : ((unfold s step : Producer ω ν α).step s).value ≠ .force node resume :=
    alone_unfold s node resume
  exact alone

theorem grounded_play {step : σ → Noted ω (Option (α × σ))} {seed : σ} :
    Grounded bound (play (ν := ν) step) sizes seed :=
  grounded_of_alone alone_play

theorem grounded_playEither {step : σ → Noted ω (Option (ν × σ))} {run : Reading ν ⊕ σ}
    (reading : ∀ r, run = .inl r → Grounded bound (reading (ω := ω)) sizes r) :
    Grounded bound (playEither step) sizes run := by
  refine ⟨fun sizes run => ∀ r, run = .inl r → Grounded bound (Producer.reading (ω := ω)) sizes r,
    reading, ?_⟩
  rintro sizes (r | seed) inside
  · exact Move.Keeps.lift (((inside r rfl).keeps).mono
      fun _ _ grounded _ same => by cases same; exact grounded)
  · cases grown : (step seed).value with
    | none => simp [playEither, play, grown, Move.lift, Move.Keeps]
    | some => simp [playEither, play, grown, Move.lift, Move.Keeps]

end Lift

section Flatten
variable {p : Producer ω ν σ} {run : σ → Noted ω (Move ν σ α)} {s : p.State}

theorem grounded_flatten (Inv : (Nat → Nat) → p.State → Prop) (here : Inv sizes s)
    (steps : ∀ sizes s, Inv sizes s → (p.step s).value.Keeps bound Inv sizes)
    (starts : ∀ sizes s start next, Inv sizes s → (p.step s).value = .yield start next →
      Grounded bound run sizes start) : Grounded bound (p.flatten run).step sizes (s, none) := by
  refine ⟨fun sizes (t : p.State × Option σ) => (∃ sizes₀ ≤ sizes, Inv sizes₀ t.1) ∧
    ∀ inner, t.2 = some inner → Grounded bound run sizes inner,
    ⟨⟨sizes, le_rfl, here⟩, fun inner none => by cases none⟩, ?_⟩
  rintro sizes ⟨outer, inner⟩ ⟨⟨sizes₀, fewer, inside⟩, grounded⟩
  cases inner with
  | none =>
    have keeps := steps sizes₀ outer inside
    cases move : (p.step outer).value with
    | yield start next =>
      have started := (starts sizes₀ outer start next inside move).grow fewer
      rw [move] at keeps
      rw [flatten_start move]
      exact ⟨⟨sizes₀, fewer, keeps⟩, fun inner same => by cases same; exact started⟩
    | skip next =>
      rw [move] at keeps
      rw [flatten_outer_skip move]
      exact ⟨⟨sizes₀, fewer, keeps⟩, fun inner none => by cases none⟩
    | force node resume =>
      rw [move] at keeps
      obtain ⟨older, computed, resumes⟩ := keeps
      rw [flatten_outer_force move]
      refine ⟨older, computed.trans_le (fewer _), fun sizes' more q within => ?_⟩
      exact ⟨⟨sizes', le_rfl, resumes sizes' (fewer.trans more) q within⟩,
        fun inner none => by cases none⟩
    | done =>
      rw [flatten_outer_done move]
      exact trivial
  | some inner =>
    have keeps := (grounded inner rfl).keeps
    cases move : (run inner).value with
    | yield value next =>
      rw [move] at keeps
      rw [flatten_yield move]
      exact ⟨⟨sizes₀, fewer, inside⟩, fun inner same => by cases same; exact keeps⟩
    | skip next =>
      rw [move] at keeps
      rw [flatten_inner_skip move]
      exact ⟨⟨sizes₀, fewer, inside⟩, fun inner same => by cases same; exact keeps⟩
    | force node resume =>
      rw [move] at keeps
      obtain ⟨older, computed, resumes⟩ := keeps
      rw [flatten_inner_force move]
      refine ⟨older, computed, fun sizes' more q within => ?_⟩
      exact ⟨⟨sizes₀, fewer.trans more, inside⟩,
        fun inner same => by cases same; exact resumes sizes' more q within⟩
    | done =>
      rw [flatten_inner_done move]
      exact ⟨⟨sizes₀, fewer, inside⟩, fun inner none => by cases none⟩

end Flatten

section Append
variable {p q : Producer ω ν α}

theorem grounded_append {s : p.State} (first : Grounded bound p.step sizes s)
    (second : Grounded bound q.step sizes q.state) :
    Grounded bound (p.append q).step sizes (.inl s) := by
  refine ⟨fun sizes t => match t with
    | .inl s => Grounded bound p.step sizes s ∧ Grounded bound q.step sizes q.state
    | .inr s => Grounded bound q.step sizes s, ⟨first, second⟩, ?_⟩
  rintro sizes (s | s) inside
  · obtain ⟨first, second⟩ := inside
    have keeps := first.keeps
    cases move : (p.step s).value with
    | done =>
      rw [append_done move]
      exact second
    | yield value next =>
      rw [move] at keeps
      rw [append_yield move]
      exact ⟨keeps, second⟩
    | skip next =>
      rw [move] at keeps
      rw [append_skip move]
      exact ⟨keeps, second⟩
    | force node resume =>
      rw [move] at keeps
      rw [append_force move]
      exact ⟨keeps.1, keeps.2.1, fun sizes' more q' within =>
        ⟨keeps.2.2 sizes' more q' within, second.grow more⟩⟩
  · exact Move.Keeps.lift inside.keeps

end Append

end DemandLex.Producer
