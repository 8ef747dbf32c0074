import DemandLex.Proofs.Sequence.Drawing
import DemandLex.Proofs.Sequence.Scanning
import DemandLex.Proofs.StepFunction.Stream
import DemandLex.Proofs.StepFunction.WalkEffects

/-! How far a merge has read its two step functions for a breakpoint: both of them up to its edge and
not behind it, with one reduction for every distinct edge on the way. -/

namespace DemandLex

open Effect Producer

variable {ω τ β E T : Type} {M : Meaning (Breakpoint E T)} {compare : E → E → Ordering}
  {reduce : T → T → Noted ω T} {equal : T → T → Noted ω Bool}

namespace Round

def effects (step : τ → Round (Breakpoint E T) → Noted ω (τ × Option β)) :
    τ → List (Round (Breakpoint E T)) → List (Effect ω)
  | _, [] => []
  | carried, round :: later =>
    looking round.cells ++ noting (step carried round).notes ++
      effects step (step carried round).value.1 later

def reducing (reduce : T → T → Noted ω T)
    (step : τ → Breakpoint E T → Noted ω (τ × Option β)) :
    T × T × τ → Round (Breakpoint E T) → Noted ω ((T × T × τ) × Option β)
  | (a, b, carried), round => do
    let left := round.leftValue a
    let right := round.rightValue b
    let value ← reduce left right
    let (carried, output) ← step carried ⟨round.edge, value⟩
    pure ((left, right, carried), output)

section Reducing
variable {step : τ → Breakpoint E T → Noted ω (τ × Option β)} {a b : T} {carried next : τ}
  {round : Round (Breakpoint E T)} {rounds : List (Round (Breakpoint E T))} {output : Option β}

theorem effects_cons {step : τ → Round (Breakpoint E T) → Noted ω (τ × Option β)}
    (given : (step carried round).value = (next, output)) :
    effects step carried (round :: rounds) =
      looking round.cells ++ noting (step carried round).notes ++ effects step next rounds := by
  rw [effects, given]

theorem effects_append {step : τ → Round (Breakpoint E T) → Noted ω (τ × Option β)}
    {later : List (Round (Breakpoint E T))} :
    effects step carried (rounds ++ later) =
      effects step carried rounds ++ effects step (carriedBehind step carried rounds) later := by
  induction rounds generalizing carried with
  | nil => rfl
  | cons round rounds ih =>
    simp only [List.cons_append, effects, ih, List.append_assoc, carriedBehind, List.foldl_cons]

theorem reducing_value
    (given : (step carried ⟨round.edge,
      silent reduce (round.leftValue a) (round.rightValue b)⟩).value = (next, output)) :
    (reducing reduce step (a, b, carried) round).value =
      ((round.leftValue a, round.rightValue b, next), output) := by
  rw [silent] at given
  simp only [reducing, Noted.value_bind, given, Noted.value_pure]

theorem reducing_notes :
    (reducing reduce step (a, b, carried) round).notes =
      (reduce (round.leftValue a) (round.rightValue b)).notes ++
        (step carried ⟨round.edge,
          silent reduce (round.leftValue a) (round.rightValue b)⟩).notes := by
  simp only [reducing, Noted.notes_bind, Noted.notes_pure, List.append_nil, silent]

theorem scanned_reducing :
    scanned (reducing reduce step) (a, b, carried) rounds =
      scanned step carried (overlaid (silent reduce) a b rounds) := by
  induction rounds generalizing a b carried with
  | nil => rfl
  | cons round rounds ih =>
    rcases given : (step carried ⟨round.edge,
      silent reduce (round.leftValue a) (round.rightValue b)⟩).value with ⟨next, output⟩
    rw [scanned_cons (reducing_value given), overlaid, scanned_cons given, ih]

end Reducing

end Round

namespace Producer

/-- What is done for the output behind so many others, and that output: the rounds up to the one that
has it. If there are not so many outputs, these are all rounds. -/
inductive FedByRounds (M : Meaning (Breakpoint E T)) (compare : E → E → Ordering)
    (step : τ → Round (Breakpoint E T) → Noted ω (τ × Option β)) (carried : τ)
    (s t : Sequence (Breakpoint E T)) (count : Nat) : List (Effect ω) → Option β → Prop
  | within {rounds : List (Round (Breakpoint E T))} {round : Round (Breakpoint E T)}
      {s' t' : Sequence (Breakpoint E T)} {after : τ} {output : β}
      (passes : M.Rounds compare s t (rounds ++ [round]) s' t')
      (place : (scanned step carried rounds).length = count)
      (given : (step (carriedBehind step carried rounds) round).value = (after, some output)) :
      FedByRounds M compare step carried s t count (Round.effects step carried (rounds ++ [round]))
        (some output)
  | past {rounds : List (Round (Breakpoint E T))} (passes : M.Rounds compare s t rounds none none)
      (place : (scanned step carried rounds).length ≤ count) :
      FedByRounds M compare step carried s t count (Round.effects step carried rounds) none

section Rounds
variable {s t s' t' : Sequence (Breakpoint E T)} {round : Round (Breakpoint E T)}
  {rounds : List (Round (Breakpoint E T))} {effects : List (Effect ω)} {shown : Option β}
  {count : Nat}

theorem FedByRounds.cons {step : τ → Round (Breakpoint E T) → Noted ω (τ × Option β)}
    {carried next : τ} {output : Option β}
    (fed : FedByRounds M compare step next s' t' count effects shown)
    (one : M.Rounds compare s t [round] s' t')
    (given : (step carried round).value = (next, output)) :
    FedByRounds M compare step carried s t (output.toList.length + count)
      (looking round.cells ++ noting (step carried round).notes ++ effects) shown := by
  cases fed with
  | @within rounds last _ _ _ _ passes place given' =>
    have all : M.Rounds compare s t (round :: rounds ++ [last]) _ _ := one.append passes
    rw [← Round.effects_cons given]
    refine .within all ?_ (carriedBehind_cons given ▸ given')
    rw [scanned_cons given, List.length_append, place]
  | past passes place =>
    rw [← Round.effects_cons given]
    refine .past (one.append passes) ?_
    rw [scanned_cons given, List.length_append]
    exact Nat.add_le_add_left place _

variable {step : τ → Breakpoint E T → Noted ω (τ × Option β)} {first second a b : T} {kept : τ}
  {s₀ t₀ : Sequence (Breakpoint E T)} {later : List (Effect ω)}
  {place : MergeState (Reading (Breakpoint E T)) (Reading (Breakpoint E T)) E T T}

theorem comes_round (one : M.Rounds compare s t [round] s' t') :
    Comes M (walking compare reduce first second (ofSequence s₀) (ofSequence t₀)) (between s t a b)
      (looking round.cells ++ noting (reduce (round.leftValue a) (round.rightValue b)).notes)
      (some (⟨round.edge, silent reduce (round.leftValue a) (round.rightValue b)⟩,
        between s' t' (round.leftValue a) (round.rightValue b))) :=
  comes_between.mpr (Or.inr ⟨round, s', t', one, rfl, rfl⟩)

theorem round_of_comes {z : Breakpoint E T}
    {next : MergeState (Reading (Breakpoint E T)) (Reading (Breakpoint E T)) E T T}
    (comes : Comes M (walking compare reduce first second (ofSequence s₀) (ofSequence t₀))
      (between s t a b) effects (some (z, next))) :
    ∃ round s' t', M.Rounds compare s t [round] s' t' ∧
      effects = looking round.cells ++
        noting (reduce (round.leftValue a) (round.rightValue b)).notes ∧
      z = ⟨round.edge, silent reduce (round.leftValue a) (round.rightValue b)⟩ ∧
      next = between s' t' (round.leftValue a) (round.rightValue b) := by
  rcases comes_between.mp comes with ⟨-, -, -, ⟨⟩⟩ | ⟨round, s', t', one, same, found⟩
  cases found
  exact ⟨round, s', t', one, same, rfl, rfl⟩

theorem fed_rounds {a' b' : T} {kept' : τ} (passes : M.Rounds compare s t rounds s' t')
    (behind : carriedBehind (Round.reducing reduce step) (a, b, kept) rounds = (a', b', kept'))
    (fed : Fed M (walking compare reduce first second (ofSequence s₀) (ofSequence t₀)) step
      (between s' t' a' b') kept' count effects shown) :
    Fed M (walking compare reduce first second (ofSequence s₀) (ofSequence t₀)) step
      (between s t a b) kept
      ((scanned (Round.reducing reduce step) (a, b, kept) rounds).length + count)
      (Round.effects (Round.reducing reduce step) (a, b, kept) rounds ++ effects) shown := by
  induction rounds generalizing s t a b kept with
  | nil =>
    cases passes
    cases behind
    exact (Nat.zero_add count).symm ▸ fed
  | cons round rounds ih =>
    obtain ⟨s₁, t₁, one, later⟩ := passes.of_cons
    rcases given : (step kept ⟨round.edge,
      silent reduce (round.leftValue a) (round.rightValue b)⟩).value with ⟨next, _ | output⟩
    · have given' := Round.reducing_value given
      rw [carriedBehind_cons given'] at behind
      rw [scanned_none given', Round.effects_cons given', Round.reducing_notes]
      have feeds := Fed.absorb (comes_round one) given (ih later behind)
      simpa only [noting_append, List.append_assoc] using feeds
    · have given' := Round.reducing_value given
      rw [carriedBehind_cons given'] at behind
      rw [scanned_some given', Round.effects_cons given', Round.reducing_notes, List.length_cons,
        Nat.add_right_comm]
      have feeds := Fed.pass (comes_round one) given (ih later behind)
      simpa only [noting_append, List.append_assoc] using feeds

theorem fedByRounds_of_fed
    (fed : Fed M (walking compare reduce first second (ofSequence s₀) (ofSequence t₀)) step place
      kept count effects shown) (here : place = between s t a b) :
    FedByRounds M compare (Round.reducing reduce step) (a, b, kept) s t count effects shown := by
  induction fed generalizing s t a b with
  | past comes =>
    rw [here] at comes
    rcases comes_between.mp comes with ⟨rfl, rfl, rfl, -⟩ | ⟨_, _, _, -, -, ⟨⟩⟩
    exact .past .nil (Nat.zero_le _)
  | @here _ _ carried _ _ output _ comes given =>
    obtain ⟨round, s₁, t₁, one, rfl, rfl, rfl⟩ := round_of_comes (here ▸ comes)
    have fed : FedByRounds M compare (Round.reducing reduce step) (a, b, carried) _ _ 0
        (Round.effects (Round.reducing reduce step) (a, b, carried) ([] ++ [round])) (some output) :=
      .within one rfl (Round.reducing_value given)
    simpa [Round.effects, Round.reducing_notes] using fed
  | pass comes given feeds ih =>
    obtain ⟨round, s₁, t₁, one, rfl, rfl, rfl⟩ := round_of_comes (here ▸ comes)
    have fed := (ih rfl).cons one (Round.reducing_value given)
    rw [Round.reducing_notes, Option.toList_some, List.length_singleton, Nat.add_comm] at fed
    simpa only [noting_append, List.append_assoc] using fed
  | absorb comes given feeds ih =>
    obtain ⟨round, s₁, t₁, one, rfl, rfl, rfl⟩ := round_of_comes (here ▸ comes)
    have fed := (ih rfl).cons one (Round.reducing_value given)
    rw [Round.reducing_notes, Option.toList_none, List.length_nil, Nat.zero_add] at fed
    simpa only [noting_append, List.append_assoc] using fed

theorem fedByRounds_iff :
    FedByRounds M compare (Round.reducing reduce step) (a, b, kept) s t count effects shown ↔
      Fed M (walking compare reduce first second (ofSequence s₀) (ofSequence t₀)) step
        (between s t a b) kept count effects shown := by
  constructor
  · intro fed
    cases fed with
    | @within rounds round _ _ _ output passes place given =>
      obtain ⟨s₁, t₁, front, one⟩ := passes.of_append
      rcases behind : carriedBehind (Round.reducing reduce step) (a, b, kept) rounds with
        ⟨a', b', kept'⟩
      rcases given' : (step kept' ⟨round.edge,
        silent reduce (round.leftValue a') (round.rightValue b')⟩).value with ⟨next, shown⟩
      rw [behind, Round.reducing_value given'] at given
      cases given
      rw [← place, Round.effects_append, behind, Round.effects, Round.effects, List.append_nil,
        Round.reducing_notes, noting_append, ← List.append_assoc (looking round.cells)]
      exact fed_rounds front behind (.here (comes_round one) given')
    | past passes place =>
      obtain ⟨extra, rfl⟩ := Nat.exists_eq_add_of_le place
      rw [← List.append_nil (Round.effects ..)]
      rcases behind : carriedBehind (Round.reducing reduce step) (a, b, kept) _ with ⟨a', b', kept'⟩
      exact fed_rounds passes behind (.past (comes_between.mpr (Or.inl ⟨rfl, rfl, rfl, rfl⟩)))
  · exact fun fed => fedByRounds_of_fed fed rfl

theorem fed_start :
    Fed M (walking compare reduce first second (ofSequence s₀) (ofSequence t₀)) step
        (between s t a b) kept count effects shown ↔
      Fed M (walking compare reduce first second (ofSequence s₀) (ofSequence t₀)) step
        ⟨.pending (.here s), a, .pending (.here t), b, none⟩ kept count effects shown := by
  constructor
  · intro fed
    have started : Fed M (walking compare reduce first second (ofSequence s₀) (ofSequence t₀)) step
        ⟨.pending (.here s), a, .pending (.here t), b, none⟩ kept count ([] ++ effects) shown :=
      fed.before fun _ _ => comes_walking_start.mpr
    exact started
  · intro fed
    have started : Fed M (walking compare reduce first second (ofSequence s₀) (ofSequence t₀)) step
        (between s t a b) kept count ([] ++ effects) shown := fed.before fun _ _ => comes_walking_start.mp
    exact started

end Rounds

end Producer

namespace Producer

variable {kept : T} {z output : Breakpoint E T}

theorem keeping_notes : (keeping equal kept z).notes = (equal kept z.value).notes := by
  rw [keeping, Noted.notes_bind]
  split <;> exact List.append_nil _

theorem keeping_output {after : T}
    (given : (keeping equal kept z).value = (after, some output)) : output = z := by
  rw [keeping, Noted.value_bind] at given
  split at given <;> cases given
  rfl

end Producer

namespace StepStream

variable {a b : StepStream E T} {store : Store ω (Breakpoint E T)}
  {rounds : List (Round (Breakpoint E T))} {count : Nat} {effects : List (Effect ω)}
  {shown : Option (Breakpoint E T)}

/-- All that a merge does in these rounds. The first values are reduced; then every round reduces the
values in force behind its edge, and compares the result with the last value kept. -/
def mergeEffects (equal : T → T → Noted ω Bool) (reduce : T → T → Noted ω T) (a b : StepStream E T)
    (rounds : List (Round (Breakpoint E T))) : List (Effect ω) :=
  noting (reduce a.first b.first).notes ++ Round.effects (Round.reducing reduce (keeping equal))
    (a.first, b.first, silent reduce a.first b.first) rounds

def Produces (M : Meaning (Breakpoint E T)) (compare : E → E → Ordering)
    (equal : T → T → Noted ω Bool) (reduce : T → T → Noted ω T) (a b : StepStream E T)
    (count : Nat) (effects : List (Effect ω)) (shown : Option (Breakpoint E T)) : Prop :=
  ∃ later, effects = noting (reduce a.first b.first).notes ++ later ∧
    FedByRounds M compare (Round.reducing reduce (keeping equal))
      (a.first, b.first, silent reduce a.first b.first) a.rest b.rest count later shown

/-- The values in force before the first edge, and behind the edge of every round. -/
def inForce : T → T → List (Round (Breakpoint E T)) → List (T × T)
  | a, b, [] => [(a, b)]
  | a, b, round :: later => (a, b) :: inForce (round.leftValue a) (round.rightValue b) later

theorem length_inForce {a b : T} : (inForce a b rounds).length = rounds.length + 1 := by
  induction rounds generalizing a b with
  | nil => rfl
  | cons round rounds ih => rw [inForce, List.length_cons, ih, List.length_cons]

section Effects

theorem nodes_mergeEffects :
    nodes (mergeEffects equal reduce a b rounds) =
      (rounds.flatMap Round.cells).map Cell.node := by
  rw [mergeEffects, nodes_append, nodes_noting, List.nil_append]
  generalize (a.first, b.first, silent reduce a.first b.first) = carried
  induction rounds generalizing carried with
  | nil => rfl
  | cons round rounds ih =>
    rw [Round.effects, nodes_append, nodes_append, nodes_looking, nodes_noting, List.append_nil, ih,
      List.flatMap_cons, List.map_append]

/-- The reductions of a merge are those of the values in force, in the order of the rounds. -/
theorem notes_mergeEffects {mine : ω → Bool} (quiet : ∀ x y, (equal x y).Silent mine) :
    (notes (mergeEffects equal reduce a b rounds)).filter mine =
      (inForce a.first b.first rounds).flatMap fun values =>
        (reduce values.1 values.2).notes.filter mine := by
  suffices ∀ left right kept : T, (reduce left right).notes.filter mine ++
      (notes (Round.effects (Round.reducing reduce (keeping equal)) (left, right, kept)
        rounds)).filter mine = (inForce left right rounds).flatMap fun values =>
          (reduce values.1 values.2).notes.filter mine by
    rw [mergeEffects, notes_append, notes_noting, List.filter_append]
    exact this a.first b.first _
  induction rounds with
  | nil =>
    intro left right kept
    simp [Round.effects, notes, inForce]
  | cons round rounds ih =>
    intro left right kept
    rcases given : (keeping equal kept ⟨round.edge,
      silent reduce (round.leftValue left) (round.rightValue right)⟩).value with ⟨next, output⟩
    -- the comparison with the last value kept takes no note that counts
    have compared : ((keeping equal kept ⟨round.edge, silent reduce (round.leftValue left)
        (round.rightValue right)⟩).notes).filter mine = [] := by
      rw [keeping_notes]
      exact List.filter_eq_nil_iff.mpr (by simpa [Noted.Silent] using quiet _ _)
    rw [Round.effects_cons (Round.reducing_value given), Round.reducing_notes, inForce,
      List.flatMap_cons, ← ih _ _ next]
    simp only [notes_append, notes_looking, notes_noting, List.nil_append, List.filter_append,
      compared, List.append_nil]

end Effects

section Merging

theorem steady_mergeWith : (mergeWith compare equal reduce a b).Steady :=
  Lazy.steady_noted.bind fun _ => steady_share.bind fun _ => Lazy.steady_pure

/-- The first value of a merge is computed at once, and then its breakpoints are shared. -/
theorem rest_mergeWith :
    StepStream.rest <$> mergeWith compare equal reduce a b =
      (Lazy.noted (reduce a.first b.first) >>= fun _ =>
        (merging compare equal reduce a b.first (ofSequence b.rest)).share) := by
  simp only [mergeWith, merge, map_bind, map_pure, bind_pure]
  rfl

theorem shows_merging (ready : store.Ready M) (left : store.Has a.rest) (right : store.Has b.rest) :
    (merging compare equal reduce a b.first (ofSequence b.rest)).share.Shows store
      (FedByRounds M compare (Round.reducing reduce (keeping equal))
        (a.first, b.first, silent reduce a.first b.first) a.rest b.rest) := by
  have right' : Grounded store.spines.size (ofSequence (ω := ω) b.rest).step store.size
      (ofSequence (ω := ω) b.rest).state := grounded_reading right
  have grounded : Grounded store.spines.size
      (merging compare equal reduce a b.first (ofSequence b.rest)).step store.size
      (merging compare equal reduce a b.first (ofSequence b.rest)).state :=
    grounded_merging left right'
  refine shows_of_exposes ready grounded fun count effects shown => ?_
  let walk := (ofSequence a.rest).overlay compare reduce a.first b.first (ofSequence b.rest)
  have same : Fed M walk.step (keeping equal) walk.state (silent reduce a.first b.first) count effects
      shown ↔ ∃ values r, Exposes M
        (walk.scanFilter (silent reduce a.first b.first) (keeping equal)).step
        (walk.state, silent reduce a.first b.first) count effects values r ∧
        r.map Prod.fst = shown := fed_iff_exposes
  exact (fedByRounds_iff.trans fed_start).trans same

theorem shows_mergeWith (ready : store.Ready M) (left : store.Has a.rest)
    (right : store.Has b.rest) :
    (StepStream.rest <$> mergeWith compare equal reduce a b).Shows store
      (Produces M compare equal reduce a b) := by
  rw [rest_mergeWith]
  exact (shows_merging (Lazy.leaves_log _ ready).ready left right).noted

theorem edge_of_reducing {carried after : T × T × T} {round : Round (Breakpoint E T)}
    {z : Breakpoint E T}
    (given : (Round.reducing reduce (keeping equal) carried round).value = (after, some z)) :
    z.edge = round.edge := by
  obtain ⟨l, r, kept⟩ := carried
  rcases given' : (keeping equal kept ⟨round.edge,
    silent reduce (round.leftValue l) (round.rightValue r)⟩).value with ⟨next, output⟩
  rw [Round.reducing_value given'] at given
  cases given
  rw [keeping_output given']

theorem scanned_rounds {s t : Sequence (Breakpoint E T)}
    (passes : M.Rounds compare a.rest b.rest rounds s t) :
    scanned (Round.reducing reduce (keeping equal))
        (a.first, b.first, silent reduce a.first b.first) rounds =
      ((⟨a.first, (rounds.filterMap Round.left?).map Cell.value⟩ : StepFunction E T).merge
        ⟨compare, silent equal⟩ (silent reduce)
        ⟨b.first, (rounds.filterMap Round.right?).map Cell.value⟩).breakpoints := by
  rw [Round.scanned_reducing, scanned_keeping, ← passes.overlay]
  rfl

/-- For a breakpoint, a merge has passed just what there is up to its edge. -/
theorem Produces.upTo [Std.TransCmp compare] {z : Breakpoint E T}
    (produces : Produces M compare equal reduce a b count effects (some z))
    (left : M.Ordered compare a.rest) (right : M.Ordered compare b.rest) :
    ∃ xs ys rounds s t, M.Merges compare a.rest b.rest xs ys rounds s t ∧
      M.UpTo compare z.edge a.rest xs s ∧ M.UpTo compare z.edge b.rest ys t ∧
      effects = mergeEffects equal reduce a b rounds := by
  obtain ⟨_, rfl, fed⟩ := produces
  cases fed with
  | @within rounds round s t after _ passes place given =>
    have edge : z.edge = round.edge := edge_of_reducing given
    rw [edge]
    obtain ⟨upTo, upTo'⟩ := passes.upTo left right
    exact ⟨_, _, _, s, t, passes.merges left right a.first, upTo, upTo', rfl⟩

theorem produces_of_upTo [Std.TransCmp compare] {edge : E} {xs ys : List (Cell (Breakpoint E T))}
    {s t : Sequence (Breakpoint E T)} {z : Breakpoint E T}
    (left : M.UpTo compare edge a.rest xs s) (right : M.UpTo compare edge b.rest ys t)
    (there : ((⟨a.first, xs.map Cell.value⟩ : StepFunction E T).merge ⟨compare, silent equal⟩
      (silent reduce) ⟨b.first, ys.map Cell.value⟩).breakpoints[count]? = some z) :
    ∃ effects, Produces M compare equal reduce a b count effects (some z) := by
  obtain ⟨rounds, passes, rfl, rfl⟩ := left.passes right
  rw [← scanned_rounds passes] at there
  obtain ⟨before, round, later, after, rfl, place, given⟩ := scanned_place there
  rw [← List.singleton_append, ← List.append_assoc] at passes
  obtain ⟨s', t', passes, -⟩ := passes.of_append
  exact ⟨_, _, rfl, .within passes place given⟩

theorem settles_mergeWith [Std.TransCmp compare] {xs ys : List (Cell (Breakpoint E T))}
    (ready : store.Ready M)
    (left : store.Has a.rest) (right : store.Has b.rest) (lefts : M.Ordered compare a.rest)
    (rights : M.Ordered compare b.rest) (walks : M.Walks a.rest xs none)
    (walks' : M.Walks b.rest ys none) :
    ∃ rounds store' other, M.Merges compare a.rest b.rest xs ys rounds none none ∧
      Store.Settles (fun fuel =>
          (mergeWith compare equal reduce a b >>= toStepFunction) fuel store)
        ((⟨a.first, xs.map Cell.value⟩ : StepFunction E T).merge ⟨compare, silent equal⟩
          (silent reduce) ⟨b.first, ys.map Cell.value⟩, store') ∧
      store.Undergoes (mergeEffects equal reduce a b rounds) other ∧
      store'.SameBelow store.spines.size other := by
  obtain ⟨rounds, passes, rfl, rfl⟩ :=
    Meaning.rounds_of_walks walks walks' (by rintro _ _ _ ⟨⟩) (by rintro _ _ _ ⟨⟩)
  have past : Produces M compare equal reduce a b _ (mergeEffects equal reduce a b rounds) none :=
    ⟨_, rfl, .past passes le_rfl⟩
  obtain ⟨front, store', other, ⟨enough, settles⟩, shown, undergoes, below⟩ :=
    (shows_mergeWith ready left right _).2 _ none past
  refine ⟨rounds, store', other, passes.merges lefts rights a.first, ?_, undergoes, below⟩
  -- what exposes the end lists all breakpoints
  obtain ⟨first, middle, came, advances⟩ := Lazy.bind_eq_some.mp (settles enough le_rfl)
  rw [map_eq_pure_bind] at came
  obtain ⟨m, _, made, same⟩ := Lazy.bind_eq_some.mp came
  cases same
  cases front with
  | some cell => cases shown
  | none =>
    obtain ⟨values, lists⟩ := settles_toList ((steady_advance _ _).settles advances)
    have listed : Store.Settles (fun fuel => m.toStepFunction fuel middle)
        (⟨m.first, values⟩, store') := Lazy.settles_bind lists ⟨0, fun _ _ => rfl⟩
    have shows : a.Shows ⟨a.first, _⟩ store M := ⟨rfl, left, walks.holds⟩
    have shows' : b.Shows ⟨b.first, _⟩ store M := ⟨rfl, right, walks'.holds⟩
    obtain ⟨f, last, -, full, -, rfl⟩ := (returns_mergeWith ready shows shows').bind
      fun m _ _ leaves made => returns_toStepFunction leaves.ready made
    have same := full.unique (Lazy.settles_bind (steady_mergeWith.settles made) listed)
    exact (Prod.mk.inj same).2 ▸ full

/-- Merging is productive and linear. A merge exposes a breakpoint just where it produces it. It has then
passed all breakpoints up to that edge and none behind it, and has looked behind these only, so that on
each side it has at most the next one at hand. It has reduced the first values and, in the order of the
edges, once the values in force for every distinct edge. Every breakpoint of the merge of two parts is
produced; and where both sides end, the whole merge comes back with one reduction for the first values
and one for every distinct edge. -/
theorem merges_on_demand [Std.TransCmp compare] (ready : store.Ready M) (left : store.Has a.rest)
    (right : store.Has b.rest) (lefts : M.Ordered compare a.rest)
    (rights : M.Ordered compare b.rest) :
    (StepStream.rest <$> mergeWith compare equal reduce a b).Shows store
      (Produces M compare equal reduce a b) ∧
    (∀ count effects z, Produces M compare equal reduce a b count effects (some z) →
      ∃ xs ys rounds s t, M.Merges compare a.rest b.rest xs ys rounds s t ∧
        M.UpTo compare z.edge a.rest xs s ∧ M.UpTo compare z.edge b.rest ys t ∧
        effects = mergeEffects equal reduce a b rounds) ∧
    (∀ rounds : List (Round (Breakpoint E T)),
      nodes (mergeEffects equal reduce a b rounds) = (rounds.flatMap Round.cells).map Cell.node ∧
      (inForce a.first b.first rounds).length = rounds.length + 1 ∧
      ∀ mine : ω → Bool, (∀ x y, (equal x y).Silent mine) →
        (notes (mergeEffects equal reduce a b rounds)).filter mine =
          (inForce a.first b.first rounds).flatMap fun values =>
            (reduce values.1 values.2).notes.filter mine) ∧
    (∀ edge xs ys s t, M.UpTo compare edge a.rest xs s → M.UpTo compare edge b.rest ys t →
      ∀ count z, ((⟨a.first, xs.map Cell.value⟩ : StepFunction E T).merge ⟨compare, silent equal⟩
          (silent reduce) ⟨b.first, ys.map Cell.value⟩).breakpoints[count]? = some z →
        ∃ effects, Produces M compare equal reduce a b count effects (some z)) ∧
    ∀ xs ys, M.Walks a.rest xs none → M.Walks b.rest ys none → ∃ rounds store' other,
      M.Merges compare a.rest b.rest xs ys rounds none none ∧
      Store.Settles (fun fuel =>
          (mergeWith compare equal reduce a b >>= toStepFunction) fuel store)
        ((⟨a.first, xs.map Cell.value⟩ : StepFunction E T).merge ⟨compare, silent equal⟩
          (silent reduce) ⟨b.first, ys.map Cell.value⟩, store') ∧
      store.Undergoes (mergeEffects equal reduce a b rounds) other ∧
      store'.SameBelow store.spines.size other := by
  refine ⟨shows_mergeWith ready left right, ?_, ?_, ?_, ?_⟩
  · exact fun count effects z produces => produces.upTo lefts rights
  · exact fun rounds => ⟨nodes_mergeEffects, length_inForce, fun mine => notes_mergeEffects⟩
  · exact fun edge xs ys s t upTo upTo' count z => produces_of_upTo upTo upTo'
  · exact fun xs ys => settles_mergeWith ready left right lefts rights

end Merging

section Sums

def addNoted (x y : Nat) : Noted (Nat × Nat) Nat := ⟨[(x, y)], x + y⟩

/-- The sum of `0 | 1: 10 | 3: 30` and `0 | 2: 0 | 3: 5`: the edge 2 makes no breakpoint, and the edge 3
of both is passed at once. -/
theorem merges_on_demand_sums :
    ∃ (a b : StepStream Nat Nat) (store : Store (Nat × Nat) (Breakpoint Nat Nat))
      (M : Meaning (Breakpoint Nat Nat)) (x₁ x₂ y₁ y₂ : Cell (Breakpoint Nat Nat)),
      store.Ready M ∧ M.Walks a.rest [x₁, x₂] none ∧ M.Walks b.rest [y₁, y₂] none ∧
      [x₁, x₂].map Cell.value = [⟨1, 10⟩, ⟨3, 30⟩] ∧ [y₁, y₂].map Cell.value = [⟨2, 0⟩, ⟨3, 5⟩] ∧
      ∃ front store' other,
        Store.Settles (fun fuel => (StepStream.rest <$> mergeWith Ord.compare
          (fun x y => pure (x == y)) addNoted a b).expose 1 fuel store) (front, store') ∧
        front.first? = some ⟨3, 35⟩ ∧
        store.Undergoes [.note (0, 0), .look x₁.node, .note (10, 0), .look y₁.node, .note (10, 0),
          .look x₂.node, .look y₂.node, .note (30, 5)] other ∧
        store'.SameBelow store.spines.size other := by
  obtain ⟨a, store, M, -, leaves, leftShows⟩ :=
    returns_ofStepFunction (ω := Nat × Nat) (f := ⟨0, [⟨1, 10⟩, ⟨3, 30⟩]⟩) Store.ready_empty
  obtain ⟨b, store', M', -, leaves', rightShows⟩ :=
    returns_ofStepFunction (f := ⟨0, [⟨2, 0⟩, ⟨3, 5⟩]⟩) leaves.ready
  have leftShows := leftShows.later leaves.ready leaves'
  obtain ⟨xs, walks, values⟩ := leftShows.rest.holds.walks
  obtain ⟨ys, walks', values'⟩ := rightShows.rest.holds.walks
  have lefts : M'.Ordered Ord.compare a.rest := leftShows.rest.holds.ordered (by decide)
  have rights : M'.Ordered Ord.compare b.rest := rightShows.rest.holds.ordered (by decide)
  obtain ⟨⟨_, first⟩, ⟨_, second⟩, rfl⟩ := List.length_eq_two.mp
    (by rw [← List.length_map (f := Cell.value), values]; rfl : xs.length = 2)
  obtain ⟨⟨_, first'⟩, ⟨_, second'⟩, rfl⟩ := List.length_eq_two.mp
    (by rw [← List.length_map (f := Cell.value), values']; rfl : ys.length = 2)
  cases values
  cases values'
  have passes : M'.Rounds Ord.compare a.rest b.rest ([.left ⟨⟨1, 10⟩, first⟩, .right ⟨⟨2, 0⟩, first'⟩] ++
      [.both ⟨⟨3, 30⟩, second⟩ ⟨⟨3, 5⟩, second'⟩]) none none := by
    generalize a.rest = s at walks
    generalize b.rest = t at walks'
    cases walks with
    | cons follows tail =>
      cases tail with
      | cons last tail =>
        cases tail
        cases walks' with
        | cons follows' tail =>
          cases tail with
          | cons last' tail =>
            cases tail
            exact .left (by rintro _ ⟨⟩; rfl) follows (.right (by rintro _ ⟨⟩; rfl) follows'
              (.both rfl last last' .nil))
  have produced : Produces M' Ord.compare (fun x y => pure (x == y)) addNoted a b 1
      (noting [(0, 0)] ++ ([.look first, .note (10, 0), .look first', .note (10, 0), .look second,
        .look second', .note (30, 5)])) (some ⟨3, 35⟩) := by
    rw [Produces, leftShows.first, rightShows.first]
    exact ⟨_, rfl, .within passes rfl rfl⟩
  obtain ⟨shows, -⟩ := merges_on_demand leaves'.ready leftShows.rest.has rightShows.rest.has lefts
    rights
  exact ⟨a, b, store', M', ⟨⟨1, 10⟩, first⟩, ⟨⟨3, 30⟩, second⟩, ⟨⟨2, 0⟩, first'⟩, ⟨⟨3, 5⟩, second'⟩,
    leaves'.ready, walks, walks', rfl, rfl, (shows 1).2 _ _ produced⟩

end Sums

end StepStream

end DemandLex
