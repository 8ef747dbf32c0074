import DemandLex.Proofs.Sequence.Reaction

/-! How far a scan has run its source for an output: up to the element that has it, with one call of the
step for each element on the way. -/

namespace DemandLex.Producer

open Effect

variable {ω ν σ τ α β : Type} {M : Meaning ν}

/-- What a scan does for the output behind so many others, and that output: its source comes to one
element after the other, and the step is called on each. -/
inductive Fed (M : Meaning ν) (source : σ → Noted ω (Move ν σ α))
    (step : τ → α → Noted ω (τ × Option β)) :
    σ → τ → Nat → List (Effect ω) → Option β → Prop
  | past {s : σ} {carried : τ} {count : Nat} {effects : List (Effect ω)}
      (comes : Comes M source s effects none) : Fed M source step s carried count effects none
  | here {s next : σ} {carried carried' : τ} {value : α} {output : β} {effects : List (Effect ω)}
      (comes : Comes M source s effects (some (value, next)))
      (given : (step carried value).value = (carried', some output)) :
      Fed M source step s carried 0 (effects ++ noting (step carried value).notes) (some output)
  | pass {s next : σ} {carried carried' : τ} {value : α} {output : β} {count : Nat}
      {effects later : List (Effect ω)} {shown : Option β}
      (comes : Comes M source s effects (some (value, next)))
      (given : (step carried value).value = (carried', some output))
      (feeds : Fed M source step next carried' count later shown) :
      Fed M source step s carried (count + 1)
        (effects ++ noting (step carried value).notes ++ later) shown
  | absorb {s next : σ} {carried carried' : τ} {value : α} {count : Nat}
      {effects later : List (Effect ω)} {shown : Option β}
      (comes : Comes M source s effects (some (value, next)))
      (given : (step carried value).value = (carried', none))
      (feeds : Fed M source step next carried' count later shown) :
      Fed M source step s carried count
        (effects ++ noting (step carried value).notes ++ later) shown

theorem Fed.before {source : σ → Noted ω (Move ν σ α)} {step : τ → α → Noted ω (τ × Option β)}
    {s s' : σ} {carried : τ} {count : Nat} {first effects : List (Effect ω)} {shown : Option β}
    (fed : Fed M source step s' carried count effects shown)
    (same : ∀ later r, Comes M source s' later r → Comes M source s (first ++ later) r) :
    Fed M source step s carried count (first ++ effects) shown := by
  cases fed with
  | past comes => exact .past (same _ _ comes)
  | here comes given =>
    rw [← List.append_assoc]
    exact .here (same _ _ comes) given
  | pass comes given feeds =>
    rw [← List.append_assoc, ← List.append_assoc]
    exact .pass (same _ _ comes) given feeds
  | absorb comes given feeds =>
    rw [← List.append_assoc, ← List.append_assoc]
    exact .absorb (same _ _ comes) given feeds

section ScanFilter
variable {p : Producer ω ν α} {start carried : τ} {step : τ → α → Noted ω (τ × Option β)}
  {s : p.State} {count : Nat} {effects before behind : List (Effect ω)} {shown : Option β}
  {found : Option (α × p.State)} {r : Option (β × (p.State × τ))}

theorem comes_absorb {next : p.State} {carried' : τ} {value : α}
    (comes : Comes M p.step s before (some (value, next)))
    (given : (step carried value).value = (carried', none))
    (later : Comes M (p.scanFilter start step).step (next, carried') behind r) :
    Comes M (p.scanFilter start step).step (s, carried)
      ((before ++ noting (step carried value).notes) ++ behind) r := by
  obtain ⟨_, found, _, comes', reacts, rfl⟩ := comes_scanFilter.mp later
  exact comes_scanFilter.mpr ⟨_, _, _, comes, .absorb given comes' reacts, List.append_assoc ..⟩

theorem Fed.exposes (fed : Fed M p.step step s carried count effects shown) :
    ∃ values r, Exposes M (p.scanFilter start step).step (s, carried) count effects values r ∧
      r.map Prod.fst = shown := by
  induction fed with
  | @past s carried count effects comes =>
    have ends : Comes M (p.scanFilter start step).step (s, carried) effects none :=
      comes_scanFilter.mpr ⟨_, _, _, comes, .stop, (List.append_nil _).symm⟩
    exact ⟨[], none, ⟨[], _, _, .nil, ends, rfl, (Nat.eq_zero_or_pos count).imp Eq.symm
      fun some_left => ⟨some_left, rfl⟩⟩, rfl⟩
  | here comes given =>
    exact ⟨[], _, .here (comes_scanFilter.mpr ⟨_, _, _, comes, .give given, rfl⟩), rfl⟩
  | pass comes given feeds ih =>
    obtain ⟨values, r, exposes, same⟩ := ih
    exact ⟨_, r, .pass (comes_scanFilter.mpr ⟨_, _, _, comes, .give given, rfl⟩) exposes, same⟩
  | absorb comes given feeds ih =>
    obtain ⟨values, r, exposes, same⟩ := ih
    exact ⟨values, r, exposes.before fun _ _ => comes_absorb comes given, same⟩

/-- Where a scan comes to rest, it has been fed up to there, and is fed on from there. -/
theorem fed_of_reacts (reacts : Reacts M p.step step found carried behind r)
    (comes : Comes M p.step s before found) :
    (r = none ∧ ∀ count, Fed M p.step step s carried count (before ++ behind) none) ∨
      ∃ output next carried', r = some (output, (next, carried')) ∧
        Fed M p.step step s carried 0 (before ++ behind) (some output) ∧
        ∀ count later shown, Fed M p.step step next carried' count later shown →
          Fed M p.step step s carried (count + 1) (before ++ behind ++ later) shown := by
  induction reacts generalizing s before with
  | stop =>
    rw [List.append_nil]
    exact Or.inl ⟨rfl, fun _ => .past comes⟩
  | give given =>
    exact Or.inr ⟨_, _, _, rfl, .here comes given, fun _ _ _ => .pass comes given⟩
  | absorb given comes' later ih =>
    rw [← List.append_assoc]
    rcases ih comes' with ⟨rfl, past⟩ | ⟨output, next, carried', rfl, here, on⟩
    · exact Or.inl ⟨rfl, fun count => .absorb comes given (past count)⟩
    · refine Or.inr ⟨output, next, carried', rfl, .absorb comes given here, ?_⟩
      intro count later shown feeds
      rw [List.append_assoc]
      exact .absorb comes given (on count later shown feeds)

theorem fed_of_runs {values : List β} {last : p.State × τ}
    (runs : Runs M (p.scanFilter start step).step (s, carried) before values last)
    (comes : Comes M (p.scanFilter start step).step last behind r)
    (places : values.length = count ∨ values.length < count ∧ r = none) :
    Fed M p.step step s carried count (before ++ behind) (r.map Prod.fst) := by
  induction values generalizing s carried before count with
  | nil =>
    cases runs
    obtain ⟨_, found, _, comes', reacts, rfl⟩ := comes_scanFilter.mp comes
    rcases fed_of_reacts reacts comes' with ⟨rfl, past⟩ | ⟨output, next, carried', rfl, here, -⟩
    · exact past count
    · rcases places with rfl | ⟨-, ⟨⟩⟩
      exact here
  | cons value values ih =>
    cases runs with
    | cons first later =>
      obtain ⟨_, found, _, comes', reacts, rfl⟩ := comes_scanFilter.mp first
      rcases fed_of_reacts reacts comes' with ⟨⟨⟩, -⟩ | ⟨output, next, carried', same, -, on⟩
      cases same
      cases count with
      | zero => simp at places
      | succ count =>
        rw [List.append_assoc]
        exact on _ _ _ (ih later (places.imp Nat.succ.inj (And.imp_left Nat.lt_of_succ_lt_succ)))

theorem fed_iff_exposes :
    Fed M p.step step s carried count effects shown ↔
      ∃ values r, Exposes M (p.scanFilter start step).step (s, carried) count effects values r ∧
        r.map Prod.fst = shown := by
  constructor
  · exact Fed.exposes
  · rintro ⟨values, r, ⟨before, behind, last, runs, comes, rfl, places⟩, rfl⟩
    exact fed_of_runs runs comes places

end ScanFilter

end DemandLex.Producer
