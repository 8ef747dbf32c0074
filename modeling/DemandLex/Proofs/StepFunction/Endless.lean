import DemandLex.Proofs.Sequence.Making
import DemandLex.Proofs.StepFunction.Listing
import DemandLex.Proofs.StepFunction.Stream

/-! Lazy step functions whose breakpoints may have no end: what becomes known of a merge is the merge
of what becomes known of its two sides. -/

namespace DemandLex

namespace Side

variable {ω ν σ α : Type} {M : Meaning ν} {step : σ → Noted ω (Move ν σ α)} {side : Side σ α}
  {r : Option (α × σ)} {n : Nat}

def given (M : Meaning ν) (step : σ → Noted ω (Move ν σ α)) (n : Nat) : Side σ α → Listing α
  | .pending s => Producer.given M step n s
  | .ready value next => .cons value (Producer.given M step n next)
  | .ended => .whole []

theorem given_mono : Monotone fun n => side.given M step n := by
  intro n m more
  cases side with
  | pending s => exact Producer.given_mono more
  | ready value next => exact Listing.cons_le (Producer.given_mono more)
  | ended => exact le_rfl

theorem given_rested : (rested r).given M step n = Producer.givenAt M step n r := by
  cases r <;> rfl

theorem isHeaded_rested : ((rested r).given M step n).isHeaded = true := by
  cases r <;> simp [rested, given, Listing.isHeaded, Listing.cons, Listing.whole]

theorem head_rested {P : α → Prop} (first : ∀ value next, r = some (value, next) → P value) :
    ∀ value ∈ ((rested r).given M step n).known.head?, P value := by
  cases r with
  | none => simp [rested, given, Listing.whole]
  | some reached => simpa [rested, given, Listing.cons] using first _ _ rfl

theorem Reaches.given_le (reached : side.Reaches M step r) (n : Nat) :
    ∃ m, (rested r).given M step n ≤ side.given M step m := by
  cases side with
  | pending s =>
    obtain ⟨moves, known⟩ := Producer.Reaches.given reached
    exact ⟨moves + n, by rw [given_rested, given, known]⟩
  | ready | ended =>
    cases reached
    exact ⟨n, le_rfl⟩

theorem reaches_of_given (headed : (side.given M step n).isHeaded = true) :
    ∃ r, side.Reaches M step r ∧ ∃ m, side.given M step n = (rested r).given M step m := by
  cases side with
  | pending s =>
    obtain ⟨r, reached, m, -, known⟩ := Producer.reaches_of_given headed
    exact ⟨r, reached, m, by rw [given_rested]; exact known⟩
  | ready value next => exact ⟨some (value, next), rfl, n, rfl⟩
  | ended => exact ⟨none, rfl, n, rfl⟩

end Side

namespace Producer

theorem Reaches.cons_le {ω ν σ α : Type} {M : Meaning ν} {step : σ → Noted ω (Move ν σ α)}
    {s next : σ} {value : α} {later : Listing α} {n : Nat}
    (reached : Reaches M step s (some (value, next)))
    (le : later ≤ Producer.given M step n next) :
    ∃ m, .cons value later ≤ Producer.given M step m s := by
  obtain ⟨moves, known⟩ := reached.given
  refine ⟨moves + n, ?_⟩
  rw [known]
  exact Listing.cons_le le

variable {ω ν E A B R : Type} {M : Meaning ν} {compare : E → E → Ordering}
  {reduce : A → B → Noted ω R} {a first : A} {b second : B} {p : Producer ω ν (Breakpoint E A)}
  {q : Producer ω ν (Breakpoint E B)} {left : Side p.State (Breakpoint E A)}
  {right : Side q.State (Breakpoint E B)}

/-- The walk knows no more than the walk over what is known of its sides. -/
theorem given_walking_le (n : Nat) :
    ∃ m, given M (walking compare reduce first second p q) n ⟨left, a, right, b, none⟩ ≤
      Listing.overlay compare (silent reduce) a b (left.given M p.step m)
        (right.given M q.step m) := by
  -- A round shows one breakpoint at most, and what it leaves is a walk with fewer moves to go.
  induction n using Nat.strongRecOn generalizing left right a b with
  | ind n ih =>
    cases headed : (given M (walking compare reduce first second p q) n
      ⟨left, a, right, b, none⟩).isHeaded with
    | false =>
      rw [Listing.eq_unknown_of_isHeaded headed]
      exact ⟨0, Listing.unknown_le⟩
    | true =>
      obtain ⟨r, reached, m, less, known⟩ := reaches_of_given headed
      rw [known]
      obtain ⟨lr, rr, leftRests, rightRests, round⟩ := reaches_walking_cases reached
      -- What is known of the rested sides the sides come to know as well.
      have later (k k' : Nat) : ∃ m, Listing.overlay compare (silent reduce) a b
          ((Side.rested lr).given M p.step k) ((Side.rested rr).given M q.step k') ≤
            Listing.overlay compare (silent reduce) a b (left.given M p.step m)
              (right.given M q.step m) := by
        obtain ⟨i, le⟩ := leftRests.given_le k
        obtain ⟨j, le'⟩ := rightRests.given_le k'
        exact ⟨max i j, Listing.overlay_le (le.trans (Side.given_mono (le_max_left ..)))
          (le'.trans (Side.given_mono (le_max_right ..)))⟩
      rcases round with
        ⟨x, next, lr', rfl, smaller, nextRests, rfl⟩ | ⟨y, next, rr', rfl, larger, nextRests, rfl⟩ |
        ⟨x, next, lr', y, next', rr', rfl, rfl, same, nextRests, nextRests', rfl⟩ | ⟨rfl, rfl, rfl⟩
      · obtain ⟨k, le⟩ := @ih m less x.value b (.rested lr') (.rested rr)
        obtain ⟨i, le'⟩ := nextRests.given_le k
        obtain ⟨j, le''⟩ := later i k
        refine ⟨j, le_trans ?_ le''⟩
        rw [Side.rested, Side.given, Listing.overlay_cons_left (Side.head_rested smaller)]
        exact Listing.cons_le_behind le' Side.isHeaded_rested le_rfl Side.isHeaded_rested
          (le.trans (Listing.overlay_le le' le_rfl))
      · obtain ⟨k, le⟩ := @ih m less a y.value (.rested lr) (.rested rr')
        obtain ⟨i, le'⟩ := nextRests.given_le k
        obtain ⟨j, le''⟩ := later k i
        refine ⟨j, le_trans ?_ le''⟩
        have here : (Side.rested (some (y, next))).given M q.step i =
            .cons y ((Side.pending next).given M q.step i) := rfl
        rw [here, Listing.overlay_cons_right (Side.head_rested larger)]
        exact Listing.cons_le_behind le_rfl Side.isHeaded_rested le' Side.isHeaded_rested
          (le.trans (Listing.overlay_le le_rfl le'))
      · obtain ⟨k, le⟩ := @ih m less x.value y.value (.rested lr') (.rested rr')
        obtain ⟨i, le'⟩ := nextRests.given_le k
        obtain ⟨i', le''⟩ := nextRests'.given_le k
        obtain ⟨j, more⟩ := later i i'
        refine ⟨j, le_trans ?_ more⟩
        rw [Side.rested, Side.rested, Side.given, Side.given, Listing.overlay_cons_both same]
        exact Listing.cons_le_behind le' Side.isHeaded_rested le'' Side.isHeaded_rested
          (le.trans (Listing.overlay_le le' le''))
      · obtain ⟨j, le⟩ := later 0 0
        exact ⟨j, le_trans Listing.overlay_nil.ge le⟩

/-- All that is known of the walk over what is known of the sides the walk comes to give. -/
theorem le_given_walking (n m : Nat) :
    ∃ k, Listing.overlay compare (silent reduce) a b (left.given M p.step n)
        (right.given M q.step m) ≤
      given M (walking compare reduce first second p q) k ⟨left, a, right, b, none⟩ := by
  generalize size : (left.given M p.step n).known.length + (right.given M q.step m).known.length =
    length
  -- Each round takes one breakpoint from what is known of a side, or one from both.
  induction length using Nat.strongRecOn generalizing left right a b n m with
  | ind length ih =>
    cases size
    cases headed : (Listing.overlay compare (silent reduce) a b (left.given M p.step n)
      (right.given M q.step m)).isHeaded with
    | false =>
      rw [Listing.eq_unknown_of_isHeaded headed]
      exact ⟨0, Listing.unknown_le⟩
    | true =>
      obtain ⟨leftHeaded, rightHeaded⟩ := Listing.isHeaded_of_overlay headed
      obtain ⟨lr, leftRests, i, leftKnown⟩ := Side.reaches_of_given leftHeaded
      obtain ⟨rr, rightRests, j, rightKnown⟩ := Side.reaches_of_given rightHeaded
      rw [leftKnown, rightKnown] at headed ⊢
      rcases pass?_cases compare a b lr rr with
        ⟨x, next, rfl, smaller, passes⟩ | ⟨y, next, rfl, larger, passes⟩ |
        ⟨x, next, y, next', rfl, rfl, same, passes⟩ | ⟨rfl, rfl, stops⟩
      · have here : (Side.rested (some (x, next))).given M p.step i =
            .cons x ((Side.pending next).given M p.step i) := rfl
        rw [here, Listing.overlay_cons_left (Side.head_rested smaller)] at headed ⊢
        obtain ⟨nextHeaded, rightHeaded⟩ := Listing.isHeaded_of_behind headed
        obtain ⟨lr', nextRests, i', nextKnown⟩ := Side.reaches_of_given nextHeaded
        rw [Listing.behind_headed nextHeaded rightHeaded, nextKnown]
        obtain ⟨k, le⟩ := @ih _ (by simp [leftKnown, rightKnown, here, nextKnown, Listing.cons])
          x.value b (.rested lr') (.rested rr) i' j rfl
        exact (reaches_of_pass leftRests rightRests passes (reaches_passed.mpr
          ⟨lr', rr, nextRests, Side.reaches_rested.mpr rfl, rfl⟩)).cons_le le
      · have here : (Side.rested (some (y, next))).given M q.step j =
            .cons y ((Side.pending next).given M q.step j) := rfl
        rw [here, Listing.overlay_cons_right (Side.head_rested larger)] at headed ⊢
        obtain ⟨leftHeaded, nextHeaded⟩ := Listing.isHeaded_of_behind headed
        obtain ⟨rr', nextRests, j', nextKnown⟩ := Side.reaches_of_given nextHeaded
        rw [Listing.behind_headed leftHeaded nextHeaded, nextKnown]
        obtain ⟨k, le⟩ := @ih _ (by simp [leftKnown, rightKnown, here, nextKnown, Listing.cons])
          a y.value (.rested lr) (.rested rr') i j' rfl
        exact (reaches_of_pass leftRests rightRests passes (reaches_passed.mpr
          ⟨lr, rr', Side.reaches_rested.mpr rfl, nextRests, rfl⟩)).cons_le le
      · have here : (Side.rested (some (x, next))).given M p.step i =
            .cons x ((Side.pending next).given M p.step i) := rfl
        have here' : (Side.rested (some (y, next'))).given M q.step j =
            .cons y ((Side.pending next').given M q.step j) := rfl
        rw [here, here', Listing.overlay_cons_both same] at headed ⊢
        obtain ⟨leftHeaded, rightHeaded⟩ := Listing.isHeaded_of_behind headed
        obtain ⟨lr', leftRests', i', leftKnown'⟩ := Side.reaches_of_given leftHeaded
        obtain ⟨rr', rightRests', j', rightKnown'⟩ := Side.reaches_of_given rightHeaded
        rw [Listing.behind_headed leftHeaded rightHeaded, leftKnown', rightKnown']
        obtain ⟨k, le⟩ := @ih _ (by
          simp [leftKnown, rightKnown, here, here', leftKnown', rightKnown', Listing.cons]
          omega) x.value y.value (.rested lr') (.rested rr') i' j' rfl
        exact (reaches_of_pass leftRests rightRests passes (reaches_passed.mpr
          ⟨lr', rr', leftRests', rightRests', rfl⟩)).cons_le le
      · have reached : Reaches M (walking compare reduce first second p q)
            ⟨left, a, right, b, none⟩ none := by
          refine reaches_overlay.mpr ⟨none, none, leftRests, rightRests, reaches_pass.mpr ?_⟩
          rw [stops]
        obtain ⟨moves, known⟩ := reached.given
        exact ⟨moves + 0, ((known 0).symm ▸ Listing.overlay_nil.le)⟩

theorem sameLimit_walking :
    Listing.SameLimit
      (fun n => given M (walking compare reduce first second p q) n ⟨left, a, right, b, none⟩)
      fun n => Listing.overlay compare (silent reduce) a b (left.given M p.step n)
        (right.given M q.step n) where
  le n := by
    obtain ⟨m, le⟩ := given_walking_le (M := M) n
    exact Listing.eventually_le
      (fun _ _ later => Listing.overlay_le (Side.given_mono later) (Side.given_mono later)) le
  ge n := by
    obtain ⟨k, le⟩ := le_given_walking (M := M) n n
    exact Listing.eventually_le given_mono le

theorem sameLimit_minimise {p : Producer ω ν (Breakpoint E R)} {equal : R → R → Noted ω Bool}
    {kept : R} {c : Nat → Listing (Breakpoint E R)}
    (limit : Listing.SameLimit (fun n => given M p.step n p.state) c) :
    Listing.SameLimit (fun n => given M (p.minimise equal kept).step n (p.minimise equal kept).state)
      fun n => (c n).through (StepFunction.minimise (silent equal) kept) :=
  sameLimit_scanned limit fun _ => scanned_keeping

end Producer

namespace StepStream

variable {ω E T U : Type} {s a b : StepStream E T} {store : Store ω (Breakpoint E T)}
  {M : Meaning (Breakpoint E T)} {compare : E → E → Ordering} {equal : T → T → Noted ω Bool}
  {first second value : T} {c d : Nat → Listing (Breakpoint E T)}

structure Known (s : StepStream E T) (first : T) (c : Nat → Listing (Breakpoint E T))
    (store : Store ω (Breakpoint E T)) (M : Meaning (Breakpoint E T)) : Prop where
  first : s.first = first
  rest : s.rest.Known c store M

theorem Known.later {store' : Store ω (Breakpoint E T)} {M' : Meaning (Breakpoint E T)}
    (known : s.Known first c store M) (ready : store.Ready M) (leaves : store.Leaves M store' M') :
    s.Known first c store' M' :=
  ⟨known.first, known.rest.later ready leaves⟩

theorem known_shown (has : store.Has s.rest) :
    s.Known s.first (fun n => M.shown n s.rest) store M :=
  ⟨rfl, has, M.denotes_shown s.rest⟩

/-- A computation makes a stream with this first value, whose breakpoints go on as the listings do.
It comes back as soon as a first breakpoint is known, or that there is none, and never without. -/
structure Makes (x : Lazy ω (Breakpoint E T) (StepStream E T))
    (store : Store ω (Breakpoint E T)) (M : Meaning (Breakpoint E T)) (first : T)
    (c : Nat → Listing (Breakpoint E T)) : Prop where
  came (fuel : Nat) (s : StepStream E T) (store' : Store ω (Breakpoint E T)) :
    x fuel store = some (s, store') → ∃ M', store.Leaves M store' M' ∧ s.Known first c store' M'
  comes (n : Nat) : (c n).isHeaded = true → ∃ r, Store.Settles (fun fuel => x fuel store) r

theorem makes_pure (ready : store.Ready M) (known : s.Known first c store M) :
    Makes (pure s) store M first c where
  came fuel s store' result := by
    cases result
    exact ⟨M, .refl ready, known⟩
  comes _ _ := ⟨_, 0, fun _ _ => rfl⟩

theorem Makes.bind {x : Lazy ω (Breakpoint E T) (StepStream E T)}
    {f : StepStream E T → Lazy ω (Breakpoint E T) (StepStream E T)}
    (makes : Makes x store M first c)
    (next : ∀ s store' M', store.Leaves M store' M' → s.Known first c store' M' →
      Makes (f s) store' M' second d)
    (needs : ∀ n, (d n).isHeaded = true → (c n).isHeaded = true) :
    Makes (x >>= f) store M second d where
  came fuel t store'' result := by
    obtain ⟨s, store', came, result'⟩ := Lazy.bind_eq_some.mp result
    obtain ⟨M', leaves, known⟩ := makes.came fuel s store' came
    obtain ⟨M'', leaves', known'⟩ := (next s store' M' leaves known).came fuel t store'' result'
    exact ⟨M'', leaves.trans leaves', known'⟩
  comes n headed := by
    obtain ⟨⟨s, store'⟩, enough, settles⟩ := makes.comes n (needs n headed)
    obtain ⟨M', leaves, known⟩ := makes.came enough s store' (settles enough le_rfl)
    obtain ⟨r, settles'⟩ := (next s store' M' leaves known).comes n headed
    exact ⟨r, Lazy.settles_bind ⟨enough, settles⟩ settles'⟩

theorem makes_share {start : Noted ω T}
    {source : T → Producer ω (Breakpoint E T) (Breakpoint E T)} (ready : store.Ready M)
    (shares : (source start.value).share.Makes (store.log start.notes) M c) :
    Makes (do
      let value ← Lazy.noted start
      let rest ← (source value).share
      pure ⟨value, rest⟩) store M start.value c where
  came fuel s store' result := by
    obtain ⟨value, store₁, noted, result'⟩ := Lazy.bind_eq_some.mp result
    cases noted
    obtain ⟨t, store₂, shared, same⟩ := Lazy.bind_eq_some.mp result'
    cases same
    obtain ⟨M', leaves, has, denotes⟩ := shares.came fuel t _ shared
    exact ⟨M', (Lazy.leaves_log start.notes ready).trans leaves, rfl, has, denotes⟩
  comes n headed := by
    obtain ⟨⟨t, store'⟩, settles⟩ := shares.comes n headed
    exact ⟨_, Lazy.settles_bind ⟨0, fun _ _ => rfl⟩
      (Lazy.settles_bind settles ⟨0, fun _ _ => rfl⟩)⟩

section Merging
variable {reduce : T → U → Noted ω T} {start : U} {e : Nat → Listing (Breakpoint E U)}
  {q : Producer ω (Breakpoint E T) (Breakpoint E U)}

theorem sameLimit_merging (left : M.Denotes a.rest c)
    (right : Listing.SameLimit (fun n => Producer.given M q.step n q.state) e) :
    Listing.SameLimit
      (fun n => Producer.given M (merging compare equal reduce a start q).step n
        (merging compare equal reduce a start q).state)
      fun n => Listing.merge compare (silent equal) (silent reduce) a.first start (c n) (e n) := by
  have sides : Listing.SameLimit
      (fun n => Producer.given M (Producer.ofSequence (ω := ω) a.rest).step n
        (Producer.ofSequence (ω := ω) a.rest).state) c := Producer.sameLimit_reading.trans left
  exact (Producer.sameLimit_minimise Producer.sameLimit_walking).trans (sides.merge right)

theorem makes_merge (ready : store.Ready M) (left : a.Known first c store M)
    (grounded : Producer.Grounded store.spines.size q.step store.size q.state)
    (right : Listing.SameLimit (fun n => Producer.given M q.step n q.state) e) :
    Makes (merge compare equal reduce a start q) store M (silent reduce first start)
      fun n => Listing.merge compare (silent equal) (silent reduce) first start (c n) (e n) := by
  obtain ⟨rfl, rest⟩ := left
  apply makes_share ready
  exact Sequence.makes_share (Lazy.leaves_log _ ready).ready (grounded_merging rest.has grounded)
    (sameLimit_merging rest.denotes right)

theorem makes_mergeWith {reduce : T → T → Noted ω T} (ready : store.Ready M)
    (left : a.Known first c store M) (right : b.Known second d store M) :
    Makes (mergeWith compare equal reduce a b) store M (silent reduce first second)
      fun n => Listing.merge compare (silent equal) (silent reduce) first second (c n) (d n) := by
  rw [mergeWith, right.first]
  exact makes_merge ready left (Producer.grounded_reading right.rest.has)
    (Producer.sameLimit_reading.trans right.rest.denotes)

end Merging

end StepStream

end DemandLex
