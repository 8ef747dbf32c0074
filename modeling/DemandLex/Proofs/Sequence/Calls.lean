import DemandLex.Proofs.Sequence.ListFunctions
import DemandLex.Proofs.Sequence.Silence

/-! The notes that a producer takes on its first moves. An operator calls its function once for each
element of its source, in their order, so its notes are those of the calls on what is known of the
source. -/

namespace DemandLex

variable {ω ν σ τ ρ α β R : Type} {M : Meaning ν}

namespace Noted

@[simp] theorem notes_map (f : α → β) (x : Noted ω α) : (f <$> x).notes = x.notes :=
  List.append_nil _

@[simp] theorem value_map (f : α → β) (x : Noted ω α) : (f <$> x).value = f x.value := rfl

end Noted

def Move.next? (M : Meaning ν) : Move ν σ α → Option σ
  | yield _ next => some next
  | skip next => some next
  | force node resume => (M.after node).map resume
  | done => none

def Move.behind (M : Meaning ν) (give : σ → Listing β) : Move ν σ α → Listing β
  | yield _ next => give next
  | skip next => give next
  | force node resume => (M.after node).elim .unknown fun q => give (resume q)
  | done => .whole []

theorem Move.behind_eq {move : Move ν σ α} {next : σ} {give : σ → Listing β}
    (moves : move.next? M = some next) : move.behind M give = give next := by
  cases move with
  | yield | skip =>
    cases moves
    rfl
  | force node resume =>
    obtain ⟨q, follows, rfl⟩ := Option.map_eq_some_iff.mp moves
    rw [behind, follows]
    rfl
  | done => cases moves

theorem Move.behind_le {move : Move ν σ α} {give give' : σ → Listing β}
    (more : ∀ s, give s ≤ give' s) : move.behind M give ≤ move.behind M give' := by
  cases move with
  | yield value next | skip next => exact more next
  | force node resume =>
    rw [behind, behind]
    cases M.after node with
    | none => exact le_rfl
    | some q => exact more (resume q)
  | done => exact le_rfl

theorem Move.behind_lift {move : Move ν σ α} {place : σ → τ} {give : τ → Listing β} :
    (move.lift place).behind M give = move.behind M fun s => give (place s) := by
  cases move <;> rfl

namespace Producer

def stateAfter (M : Meaning ν) (step : σ → Noted ω (Move ν σ α)) : Nat → σ → Option σ
  | 0, s => some s
  | n + 1, s => ((step s).value.next? M).bind (stateAfter M step n)

/-- The notes of so many moves, and whether the last of them is the end. -/
def notesOf (M : Meaning ν) (step : σ → Noted ω (Move ν σ α)) : Nat → σ → Listing ω
  | 0, _ => .unknown
  | n + 1, s => (Listing.whole (step s).notes).append
    ((step s).value.behind M (notesOf M step n))

section Moves
variable {step : σ → Noted ω (Move ν σ α)} {s t : σ} {n : Nat}

theorem stateAfter_succ :
    stateAfter M step (n + 1) s = (stateAfter M step n s).bind fun t => (step t).value.next? M := by
  induction n generalizing s with
  | zero =>
    show ((step s).value.next? M).bind some = (step s).value.next? M
    cases (step s).value.next? M <;> rfl
  | succ n ih =>
    rw [stateAfter, stateAfter]
    cases (step s).value.next? M with
    | none => rfl
    | some next => exact ih

theorem notesOf_le_succ : notesOf M step n s ≤ notesOf M step (n + 1) s := by
  induction n generalizing s with
  | zero => exact Listing.unknown_le
  | succ n ih => exact Listing.append_le le_rfl (Move.behind_le fun _ => ih)

section Equations
variable {notes : List ω} {value : α} {next : σ} {node : Node} {resume : Sequence ν → σ}

theorem notesOf_yield (moves : step s = ⟨notes, .yield value next⟩) :
    notesOf M step (n + 1) s = (Listing.whole notes).append (notesOf M step n next) := by
  rw [notesOf, moves]
  rfl

theorem notesOf_skip (moves : step s = ⟨notes, .skip next⟩) :
    notesOf M step (n + 1) s = (Listing.whole notes).append (notesOf M step n next) := by
  rw [notesOf, moves]
  rfl

theorem notesOf_force {q : Sequence ν} (moves : step s = ⟨notes, .force node resume⟩)
    (follows : M.after node = some q) :
    notesOf M step (n + 1) s = (Listing.whole notes).append (notesOf M step n (resume q)) := by
  rw [notesOf, moves, Move.behind, follows]
  rfl

theorem notesOf_stuck (moves : step s = ⟨notes, .force node resume⟩) (stuck : M.after node = none) :
    notesOf M step (n + 1) s = (Listing.whole notes).append .unknown := by
  rw [notesOf, moves, Move.behind, stuck]
  rfl

theorem notesOf_done (moves : step s = ⟨notes, .done⟩) :
    notesOf M step (n + 1) s = .whole notes := by
  rw [notesOf, moves, Move.behind, Listing.append_nil]

end Equations

theorem notesOf_le_nil (mute : ∀ s, (step s).notes = []) : notesOf M step n s ≤ .whole [] := by
  induction n generalizing s with
  | zero => exact Listing.unknown_le
  | succ n ih =>
    rw [notesOf, mute, Listing.nil_append]
    cases (step s).value with
    | yield value next | skip next => exact ih
    | force node resume =>
      rw [Move.behind]
      cases M.after node with
      | none => exact Listing.unknown_le
      | some q => exact ih
    | done => exact le_rfl

theorem notesOf_succ (reached : stateAfter M step n s = some t) :
    (notesOf M step (n + 1) s).known = (notesOf M step n s).known ++ (step t).notes := by
  induction n generalizing s with
  | zero =>
    cases reached
    have nothing : ((step t).value.behind M (notesOf M step 0)).known = [] := by
      cases (step t).value with
      | yield | skip | done => rfl
      | force node resume =>
        rw [Move.behind]
        cases M.after node <;> rfl
    show (step t).notes ++ ((step t).value.behind M (notesOf M step 0)).known = [] ++ (step t).notes
    rw [nothing, List.append_nil, List.nil_append]
  | succ n ih =>
    rw [stateAfter] at reached
    obtain ⟨next, moves, later⟩ := Option.bind_eq_some_iff.mp reached
    rw [notesOf, notesOf, Move.behind_eq moves, Move.behind_eq moves]
    simp only [Listing.append, Listing.whole, if_true, ih later, List.append_assoc]

theorem notesOf_lift {step' : τ → Noted ω (Move ν τ α)} (place : σ → τ)
    (lifts : ∀ s, step' (place s) = (fun move => move.lift place) <$> step s) :
    notesOf M step' n (place s) = notesOf M step n s := by
  induction n generalizing s with
  | zero => rfl
  | succ n ih =>
    rw [notesOf, lifts, Noted.notes_map, Noted.value_map, Move.behind_lift]
    simp only [ih]
    rfl

end Moves

section Growth
variable {step : σ → Noted ω (Option (α × σ))}

def growthNotes (step : σ → Noted ω (Option (α × σ))) : Nat → σ → Listing ω
  | 0, _ => .unknown
  | depth + 1, seed => (Listing.whole (step seed).notes).append
    (match (step seed).value with
    | some (_, next) => growthNotes step depth next
    | none => .whole [])

theorem notesOf_play {n : Nat} {seed : σ} :
    notesOf M (play step) n seed = growthNotes step n seed := by
  induction n generalizing seed with
  | zero => rfl
  | succ n ih =>
    rw [notesOf, growthNotes]
    cases grown : (step seed).value with
    | none => simp [play, grown, Move.behind]
    | some found => simp [play, grown, Move.behind, ih]

theorem growthNotes_mono {seed : σ} : Monotone fun depth => growthNotes step depth seed := by
  apply monotone_nat_of_le_succ
  intro depth
  induction depth generalizing seed with
  | zero => exact Listing.unknown_le
  | succ depth ih =>
    rw [growthNotes, growthNotes]
    cases (step seed).value with
    | none => exact le_rfl
    | some found => exact Listing.append_le le_rfl ih

end Growth

section Calls

def foldNotes (f : τ → α → Noted ω τ) : τ → List α → List ω
  | _, [] => []
  | carried, value :: later => (f carried value).notes ++ foldNotes f (f carried value).value later

def whileNotes (keep : α → Noted ω Bool) : List α → List ω
  | [] => []
  | value :: later =>
    (keep value).notes ++ if (keep value).value then whileNotes keep later else []

/-- The notes of a step that carries a state and whose outputs start runs, and of these, one run
behind the other. -/
def runNotes (step : τ → α → Noted ω (τ × R)) (run : R → Listing ω) : τ → Listing α → Listing ω
  | carried, ⟨known, complete⟩ => go carried known ⟨[], complete⟩
where
  go : τ → List α → Listing ω → Listing ω
  | _, [], last => last
  | carried, value :: later, last => (Listing.whole (step carried value).notes).append
    ((run (step carried value).value.2).append (go (step carried value).value.1 later last))

theorem foldNotes_more (f : τ → α → Noted ω τ) (carried : τ) (values later : List α) :
    foldNotes f carried values <+: foldNotes f carried (values ++ later) := by
  induction values generalizing carried with
  | nil => exact List.nil_prefix
  | cons value values ih => exact (List.prefix_append_right_inj _).mpr (ih _)

theorem foldNotes_flatMap (f : α → Noted ω τ) (carried : τ) (values : List α) :
    foldNotes (fun _ value => f value) carried values = values.flatMap fun value => (f value).notes := by
  induction values generalizing carried with
  | nil => rfl
  | cons value values ih => rw [foldNotes, ih, List.flatMap_cons]

theorem whileNotes_more (keep : α → Noted ω Bool) (values later : List α) :
    whileNotes keep values <+: whileNotes keep (values ++ later) := by
  induction values with
  | nil => exact List.nil_prefix
  | cons value values ih =>
    refine (List.prefix_append_right_inj _).mpr ?_
    split
    · exact ih
    · exact List.prefix_refl _

section Runs
variable {step : τ → α → Noted ω (τ × R)} {run run' : R → Listing ω} {carried : τ}

theorem runNotes_cons {value : α} {l : Listing α} :
    runNotes step run carried (l.cons value) = (Listing.whole (step carried value).notes).append
      ((run (step carried value).value.2).append
        (runNotes step run (step carried value).value.1 l)) := rfl

theorem runNotes_place {place : R → σ} {run : σ → Listing ω} {l : Listing α} :
    runNotes (fun carried value => do
      let (next, output) ← step carried value
      pure (next, place output)) run carried l = runNotes step (fun r => run (place r)) carried l := by
  obtain ⟨known, complete⟩ := l
  induction known generalizing carried with
  | nil => rfl
  | cons value values ih =>
    refine (runNotes_cons (l := ⟨values, complete⟩)).trans ?_
    refine Eq.trans ?_ (runNotes_cons (l := ⟨values, complete⟩)).symm
    rw [Noted.notes_bind, Noted.notes_pure, List.append_nil]
    exact congrArg _ (congrArg _ ih)

theorem runNotes_le {l l' : Listing α} (more : ∀ r, run r ≤ run' r) (le : l ≤ l') :
    runNotes step run carried l ≤ runNotes step run' carried l' := by
  obtain ⟨known, complete⟩ := l
  obtain ⟨known', complete'⟩ := l'
  obtain ⟨⟨later, rfl⟩, ends⟩ := le
  induction known generalizing carried with
  | nil =>
    cases complete with
    | true =>
      obtain ⟨rfl, rfl⟩ : later = [] ∧ complete' = true := by simpa using ends rfl
      exact le_rfl
    | false => exact Listing.unknown_le
  | cons value values ih =>
    refine Listing.append_le le_rfl (Listing.append_le (more _) (ih fun complete => ?_))
    simpa using ends complete

end Runs

end Calls

section Operators
variable {step : σ → Noted ω (Move ν σ α)} {step' : ρ → Noted ω (Move ν ρ β)} {n : Nat}

/-- What an operator with a state of its own notes on an element, and where it goes on. -/
inductive Notes (place : τ → σ → ρ) (next : σ) (f : τ → Listing α → Listing ω) (carried : τ)
    (value : α) : Noted ω (Move ν ρ β) → Prop
  | yield {notes : List ω} {output : β} (carried' : τ)
      (known : ∀ l, f carried (.cons value l) = (Listing.whole notes).append (f carried' l)) :
      Notes place next f carried value ⟨notes, .yield output (place carried' next)⟩
  | skip {notes : List ω} (carried' : τ)
      (known : ∀ l, f carried (.cons value l) = (Listing.whole notes).append (f carried' l)) :
      Notes place next f carried value ⟨notes, .skip (place carried' next)⟩
  | done {notes : List ω} (known : ∀ l, f carried (.cons value l) = .whole notes) :
      Notes place next f carried value ⟨notes, .done⟩

theorem notesOf_of_moves (place : τ → σ → ρ) (f : τ → Listing α → Listing ω)
    (unknown : ∀ carried, f carried .unknown = .unknown)
    (nil : ∀ carried, f carried (.whole []) = .whole [])
    (mute : ∀ s, (step s).notes = [])
    (yield : ∀ carried s value next, step s = ⟨[], .yield value next⟩ →
      Notes place next f carried value (step' (place carried s)))
    (skip : ∀ carried s next, step s = ⟨[], .skip next⟩ →
      step' (place carried s) = ⟨[], .skip (place carried next)⟩)
    (force : ∀ carried s node resume, step s = ⟨[], .force node resume⟩ →
      step' (place carried s) = ⟨[], .force node fun q => place carried (resume q)⟩)
    (done : ∀ carried s, step s = ⟨[], .done⟩ → step' (place carried s) = ⟨[], .done⟩)
    (carried : τ) {s : σ} :
    notesOf M step' n (place carried s) = f carried (given M step n s) := by
  induction n generalizing carried s with
  | zero => exact (unknown carried).symm
  | succ n ih =>
    have silent := mute s
    rcases moves : step s with ⟨notes, move⟩
    rw [moves] at silent
    cases silent
    cases move with
    | yield value next =>
      have notes := yield carried s value next moves
      rw [given_yield (congrArg Noted.value moves)]
      generalize moved : step' (place carried s) = moves' at notes
      cases notes with
      | yield carried' known => rw [notesOf_yield moved, ih, known]
      | skip carried' known => rw [notesOf_skip moved, ih, known]
      | done known => rw [notesOf_done moved, known]
    | skip next =>
      rw [given_skip (congrArg Noted.value moves), notesOf_skip (skip carried s next moves), ih,
        Listing.nil_append]
    | force node resume =>
      have moved := force carried s node resume moves
      cases follows : M.after node with
      | none =>
        rw [given_stuck (congrArg Noted.value moves) follows, notesOf_stuck moved follows, unknown,
          Listing.nil_append]
      | some q =>
        rw [given_force (congrArg Noted.value moves) follows, notesOf_force moved follows, ih,
          Listing.nil_append]
    | done =>
      rw [given_done (congrArg Noted.value moves), notesOf_done (done carried s moves), nil]

variable {p : Producer ω ν α} {s : p.State}

theorem notesOf_scanFilter {start carried : τ} {step : τ → α → Noted ω (τ × Option β)}
    (mute : ∀ s, (p.step s).notes = []) :
    notesOf M (p.scanFilter start step).step n (s, carried) =
      (given M p.step n s).through (foldNotes (fun s value => Prod.fst <$> step s value) carried) := by
  refine notesOf_of_moves (fun carried s => (s, carried))
    (fun carried l => l.through (foldNotes (fun s value => Prod.fst <$> step s value) carried))
    (fun _ => rfl) (fun _ => rfl) mute ?_ ?_ ?_ ?_ carried
  · intro carried s value next moves
    rcases called : step carried value with ⟨notes, carried', output⟩
    have known (l : Listing α) : (l.cons value).through
        (foldNotes (fun s value => Prod.fst <$> step s value) carried) =
          (Listing.whole notes).append
            (l.through (foldNotes (fun s value => Prod.fst <$> step s value) carried')) := by
      simp [Listing.through, Listing.cons, Listing.append, Listing.whole, foldNotes, called]
    cases output with
    | none =>
      have moved : (p.scanFilter start step).step (s, carried) = ⟨notes, .skip (next, carried')⟩ := by
        apply Noted.ext <;> simp [scanFilter, moves, called]
      rw [moved]
      exact .skip carried' known
    | some output =>
      have moved : (p.scanFilter start step).step (s, carried) =
          ⟨notes, .yield output (next, carried')⟩ := by
        apply Noted.ext <;> simp [scanFilter, moves, called]
      rw [moved]
      exact .yield carried' known
  · intro carried s next moves
    apply Noted.ext <;> simp [scanFilter, moves]
  · intro carried s node resume moves
    apply Noted.ext <;> simp [scanFilter, moves]
  · intro carried s moves
    apply Noted.ext <;> simp [scanFilter, moves]

theorem notesOf_takeWhile {keep : α → Noted ω Bool} (mute : ∀ s, (p.step s).notes = []) :
    notesOf M (p.takeWhile keep).step n s = ⟨whileNotes keep (given M p.step n s).known,
      (given M p.step n s).complete ||
        !(given M p.step n s).known.all fun value => (keep value).value⟩ := by
  refine notesOf_of_moves (fun (_ : Unit) s => s)
    (fun _ l => ⟨whileNotes keep l.known, l.complete || !l.known.all fun value => (keep value).value⟩)
    (fun _ => rfl) (fun _ => rfl) mute ?_ ?_ ?_ ?_ ()
  · intro _ s value next moves
    rcases called : keep value with ⟨notes, _ | _⟩
    · have moved : (p.takeWhile keep).step s = ⟨notes, .done⟩ := by
        apply Noted.ext <;> simp [takeWhile, moves, called]
      rw [moved]
      refine .done fun l => ?_
      simp [Listing.cons, whileNotes, called, Listing.whole]
    · have moved : (p.takeWhile keep).step s = ⟨notes, .yield value next⟩ := by
        apply Noted.ext <;> simp [takeWhile, moves, called]
      rw [moved]
      refine .yield () fun l => ?_
      simp [Listing.cons, whileNotes, called, Listing.append, Listing.whole]
  · intro _ s next moves
    apply Noted.ext <;> simp [takeWhile, moves]
  · intro _ s node resume moves
    apply Noted.ext <;> simp [takeWhile, moves]
  · intro _ s moves
    apply Noted.ext <;> simp [takeWhile, moves]

end Operators

theorem notesOf_append_le {p q : Producer ω ν α} {s : p.State} {n : Nat}
    (mute : ∀ s, (p.step s).notes = []) :
    notesOf M (p.append q).step n (.inl s) ≤ notesOf M q.step n q.state := by
  induction n generalizing s with
  | zero => exact Listing.unknown_le
  | succ n ih =>
    have later (t : p.State) : notesOf M (p.append q).step n (.inl t) ≤
        notesOf M q.step (n + 1) q.state := ih.trans notesOf_le_succ
    have second (t : q.State) : notesOf M (p.append q).step n (.inr t) = notesOf M q.step n t :=
      notesOf_lift Sum.inr fun _ => rfl
    have moved {move : Move ν (p.append q).State α}
        (moves : ((p.append q).step (.inl s)).value = move) :
        (p.append q).step (.inl s) = ⟨[], move⟩ :=
      Noted.ext (by cases move : (p.step s).value <;> simp [append, move, mute]) moves
    cases move : (p.step s).value with
    | yield value next =>
      exact (notesOf_yield (moved (append_yield move))).trans_le
        (Listing.nil_append.trans_le (later next))
    | skip next =>
      exact (notesOf_skip (moved (append_skip move))).trans_le
        (Listing.nil_append.trans_le (later next))
    | force node resume =>
      cases follows : M.after node with
      | none =>
        exact (notesOf_stuck (moved (append_force move)) follows).trans_le
          (Listing.nil_append.trans_le Listing.unknown_le)
      | some r =>
        exact (notesOf_force (moved (append_force move)) follows).trans_le
          (Listing.nil_append.trans_le (later (resume r)))
    | done =>
      exact (notesOf_skip (moved (append_done move))).trans_le
        (Listing.nil_append.trans_le ((second q.state).trans_le notesOf_le_succ))

section FlatScan
variable {p : Producer ω ν α} {start : τ} {step : τ → α → Noted ω (τ × σ)}
  {run : σ → Noted ω (Move ν σ β)} {s : p.State} {carried : τ} {n : Nat}

private theorem le_more {r : σ} {s : p.State} :
    (notesOf M run n r).append (runNotes step (notesOf M run n) carried (given M p.step n s)) ≤
      (notesOf M run (n + 1) r).append
        (runNotes step (notesOf M run (n + 1)) carried (given M p.step n s)) :=
  Listing.append_le notesOf_le_succ (runNotes_le (fun _ => notesOf_le_succ) le_rfl)

private theorem notesOf_flatScan_between (mute : ∀ s, (p.step s).notes = [])
    (between : ∀ {s carried}, notesOf M (p.flatScan start step run).step n ((s, carried), none) ≤
      runNotes step (notesOf M run n) carried (given M p.step n s))
    (within : ∀ {s carried} r, notesOf M (p.flatScan start step run).step n ((s, carried), some r) ≤
      (notesOf M run n r).append
        (runNotes step (notesOf M run n) carried (given M p.step n s))) :
    notesOf M (p.flatScan start step run).step (n + 1) ((s, carried), none) ≤
      runNotes step (notesOf M run (n + 1)) carried (given M p.step (n + 1) s) := by
  have silent := mute s
  rcases moves : p.step s with ⟨notes, move⟩
  rw [moves] at silent
  cases silent
  have more {carried : τ} {next : p.State} :
      runNotes step (notesOf M run n) carried (given M p.step n next) ≤
        runNotes step (notesOf M run (n + 1)) carried (given M p.step n next) :=
    runNotes_le (fun _ => notesOf_le_succ) le_rfl
  cases move with
  | yield value next =>
    rcases called : step carried value with ⟨notes, carried', r⟩
    have moved : (p.flatScan start step run).step ((s, carried), none) =
        ⟨notes, .skip ((next, carried'), some r)⟩ := by
      apply Noted.ext <;> simp [flatScan, flatten, scanFilter, moves, called]
    rw [given_yield (congrArg Noted.value moves), runNotes_cons, called]
    refine (notesOf_skip moved).trans_le (Listing.append_le le_rfl ?_)
    exact (within r).trans le_more
  | skip next =>
    have moved : (p.flatScan start step run).step ((s, carried), none) =
        ⟨[], .skip ((next, carried), none)⟩ := by
      apply Noted.ext <;> simp [flatScan, flatten, scanFilter, moves]
    rw [given_skip (congrArg Noted.value moves)]
    exact (notesOf_skip moved).trans_le (between.trans more)
  | force node resume =>
    have moved : (p.flatScan start step run).step ((s, carried), none) =
        ⟨[], .force node fun q => ((resume q, carried), none)⟩ := by
      apply Noted.ext <;> simp [flatScan, flatten, scanFilter, moves]
    cases follows : M.after node with
    | none => exact (notesOf_stuck moved follows).trans_le Listing.unknown_le
    | some q =>
      rw [given_force (congrArg Noted.value moves) follows]
      exact (notesOf_force moved follows).trans_le (between.trans more)
  | done =>
    have moved : (p.flatScan start step run).step ((s, carried), none) = ⟨[], .done⟩ := by
      apply Noted.ext <;> simp [flatScan, flatten, scanFilter, moves]
    rw [given_done (congrArg Noted.value moves)]
    exact (notesOf_done moved).le

private theorem notesOf_flatScan_within (r : σ)
    (between : ∀ {s carried}, notesOf M (p.flatScan start step run).step n ((s, carried), none) ≤
      runNotes step (notesOf M run n) carried (given M p.step n s))
    (within : ∀ {s carried} r, notesOf M (p.flatScan start step run).step n ((s, carried), some r) ≤
      (notesOf M run n r).append
        (runNotes step (notesOf M run n) carried (given M p.step n s))) :
    notesOf M (p.flatScan start step run).step (n + 1) ((s, carried), some r) ≤
      (notesOf M run (n + 1) r).append
        (runNotes step (notesOf M run (n + 1)) carried (given M p.step (n + 1) s)) := by
  have behind : runNotes step (notesOf M run n) carried (given M p.step n s) ≤
      runNotes step (notesOf M run (n + 1)) carried (given M p.step (n + 1) s) :=
    runNotes_le (fun _ => notesOf_le_succ) given_le_succ
  rcases moves : run r with ⟨notes, move⟩
  cases move with
  | yield value next =>
    have moved : (p.flatScan start step run).step ((s, carried), some r) =
        ⟨notes, .yield value ((s, carried), some next)⟩ := by
      apply Noted.ext <;> simp [flatScan, flatten, moves, Move.lift]
    rw [notesOf_yield moves, Listing.append_assoc]
    refine (notesOf_yield moved).trans_le (Listing.append_le le_rfl ?_)
    exact (within next).trans (Listing.append_le le_rfl behind)
  | skip next =>
    have moved : (p.flatScan start step run).step ((s, carried), some r) =
        ⟨notes, .skip ((s, carried), some next)⟩ := by
      apply Noted.ext <;> simp [flatScan, flatten, moves, Move.lift]
    rw [notesOf_skip moves, Listing.append_assoc]
    refine (notesOf_skip moved).trans_le (Listing.append_le le_rfl ?_)
    exact (within next).trans (Listing.append_le le_rfl behind)
  | force node resume =>
    have moved : (p.flatScan start step run).step ((s, carried), some r) =
        ⟨notes, .force node fun q => ((s, carried), some (resume q))⟩ := by
      apply Noted.ext <;> simp [flatScan, flatten, moves, Move.lift]
    cases follows : M.after node with
    | none =>
      rw [notesOf_stuck moves follows, Listing.append_assoc]
      exact (notesOf_stuck moved follows).trans_le (Listing.append_le le_rfl Listing.unknown_le)
    | some q =>
      rw [notesOf_force moves follows, Listing.append_assoc]
      refine (notesOf_force moved follows).trans_le (Listing.append_le le_rfl ?_)
      exact (within (resume q)).trans (Listing.append_le le_rfl behind)
  | done =>
    have moved : (p.flatScan start step run).step ((s, carried), some r) =
        ⟨notes, .skip ((s, carried), none)⟩ := by
      apply Noted.ext <;> simp [flatScan, flatten, moves]
    rw [notesOf_done moves]
    exact (notesOf_skip moved).trans_le (Listing.append_le le_rfl (between.trans behind))

/-- The step is called on the elements of the source, and the run that an element starts is played to
its end before the step is called again. -/
theorem notesOf_flatScan_le (mute : ∀ s, (p.step s).notes = []) :
    notesOf M (p.flatScan start step run).step n ((s, carried), none) ≤
        runNotes step (notesOf M run n) carried (given M p.step n s) ∧
      ∀ r, notesOf M (p.flatScan start step run).step n ((s, carried), some r) ≤
        (notesOf M run n r).append
          (runNotes step (notesOf M run n) carried (given M p.step n s)) := by
  induction n generalizing s carried with
  | zero => exact ⟨Listing.unknown_le, fun _ => Listing.unknown_le⟩
  | succ n ih =>
    constructor
    · exact notesOf_flatScan_between mute ih.1 fun r => ih.2 r
    · intro r
      exact notesOf_flatScan_within r ih.1 fun r => ih.2 r

end FlatScan

end Producer

end DemandLex
