import DemandLex.Proofs.Sequence.Answering
import DemandLex.Proofs.Sequence.Grounding

/-! Computations that make sequences. Each comes back as soon as a first element is known of the list
it stands for, or that there is none, and never without. What it comes back with goes on as the
list does. -/

namespace DemandLex

variable {ω ν α β : Type}

/-- A computation makes a sequence that goes on as the listings do. -/
structure Lazy.Makes (x : Lazy ω ν (Sequence ν)) (store : Store ω ν) (M : Meaning ν)
    (c : Nat → Listing ν) : Prop where
  came (fuel : Nat) (s : Sequence ν) (store' : Store ω ν) : x fuel store = some (s, store') →
    ∃ M', store.Leaves M store' M' ∧ store'.Has s ∧ M'.Denotes s c
  comes (d : Nat) : (c d).isHeaded = true → ∃ r, Store.Settles (fun fuel => x fuel store) r

namespace Sequence

variable {store : Store ω ν} {M : Meaning ν} {s t : Sequence ν} {c : Nat → Listing ν}

structure Known (s : Sequence ν) (c : Nat → Listing ν) (store : Store ω ν) (M : Meaning ν) :
    Prop where
  has : store.Has s
  denotes : M.Denotes s c

theorem Known.later {store' : Store ω ν} {M' : Meaning ν} (known : s.Known c store M)
    (ready : store.Ready M) (leaves : store.Leaves M store' M') : s.Known c store' M' :=
  ⟨leaves.has known.has, leaves.denotes ready known.has known.denotes⟩

theorem known_empty : Known none (fun _ => .whole []) store M :=
  ⟨within_none, Listing.sameLimit_of_shift 1 Meaning.shown_mono fun _ => rfl⟩

theorem makes_of_returns {x : Lazy ω ν (Sequence ν)} (steady : x.Steady)
    (returns : x.Returns store M fun s store' M' => s.Known c store' M') : x.Makes store M c where
  came fuel s store' result := by
    obtain ⟨M', leaves, known⟩ := returns.of_eq_some steady result
    exact ⟨M', leaves, known.has, known.denotes⟩
  comes _ _ := by
    obtain ⟨s, store', M', settles, -, -⟩ := returns
    exact ⟨(s, store'), settles⟩

theorem makes_pure (ready : store.Ready M) (known : s.Known c store M) :
    (pure s : Lazy ω ν (Sequence ν)).Makes store M c :=
  makes_of_returns Lazy.steady_pure (Lazy.returns_pure ready known)

section Single
variable {value : ν} {frontier : Frontier ω ν}

def Leads (frontier : Frontier ω ν) (tail : Sequence ν) : Prop :=
  frontier = .closed tail ∨ ∃ notes, frontier = .suspended .empty ⟨notes, tail⟩

theorem steady_single : (single value frontier : Lazy ω ν (Sequence ν)).Steady :=
  fun _ _ _ _ _ came => came

private theorem continues_empty {id index : Nat} (stands : M ⟨id, index⟩ = some t) :
    Producer.Continues M id index (Producer.empty : Producer ω ν ν).step () t := by
  have ends {r : Option (ν × Unit)} :
      Producer.Reaches M (Producer.empty : Producer ω ν ν).step () r ↔ r = none :=
    Producer.reaches_done rfl
  intro values last start q
  cases start with
  | nil =>
    simp only [List.length_nil, Nat.add_zero, stands, Option.some_inj]
    constructor
    · rintro rfl
      exact ⟨none, ends.mpr rfl, rfl⟩
    · rintro ⟨r, reached, rfl⟩
      rw [ends.mp reached]
      rfl
  | cons first => cases ends.mp first

/-- A meaning in which the next spine has one element, with the tail behind it. -/
theorem exists_single (value : ν) (descends : M.Descends store.spines.size) (has : store.Has t) :
    ∃ N : Meaning ν, M.Agree N store.spines.size ∧ N.Descends (store.spines.size + 1) ∧
      N ⟨store.spines.size, 0⟩ = some (some ⟨value, store.spines.size, 0⟩) ∧
      N ⟨store.spines.size, 1⟩ = some t := by
  -- the spine means what a producer of the one element gives
  obtain ⟨step, yields, ends⟩ : ∃ step : Bool → Noted ω (Move ν Bool ν),
      (step true).value = .yield value false ∧ (step false).value = .done :=
    ⟨fun more => pure (if more then .yield value false else .done), rfl, rfl⟩
  have grounded : Producer.Grounded store.spines.size step store.size true := by
    apply Producer.grounded_of_alone
    rintro (_ | _) node resume asked
    · cases ends.symm.trans asked
    · cases yields.symm.trans asked
  have continues : Producer.Continues (Producer.extend M store.spines.size step true t)
      store.spines.size 0 step true t := Producer.continues_extend grounded descends
  have behind := continues.behind (.yield yields)
  exact ⟨_, Producer.agree_extend, Producer.descends_extend descends has,
    continues.here.mpr ⟨_, .yield yields, rfl⟩, behind.here.mpr ⟨none, .done ends, rfl⟩⟩

theorem Leads.leaves {N : Meaning ν} (leads : Leads frontier t) (ready : store.Ready M)
    (has : store.Has t) (agree : M.Agree N store.spines.size)
    (descends : N.Descends (store.spines.size + 1))
    (first : N ⟨store.spines.size, 0⟩ = some (some ⟨value, store.spines.size, 0⟩))
    (second : N ⟨store.spines.size, 1⟩ = some t) :
    store.Leaves M (store.pushed ⟨#[value], frontier⟩) N := by
  have within : t.Within store.spines.size (store.pushed ⟨#[value], frontier⟩).size :=
    has.grow Store.size_le_pushed
  have fits : (store.pushed ⟨#[value], frontier⟩).Fits N := by
    apply ready.fits.pushed agree descends
    · intro index value' there
      obtain ⟨inside, rfl⟩ := Array.getElem?_eq_some_iff.mp there
      obtain rfl : index = 0 := by simpa using inside
      exact first
    · rcases leads with rfl | ⟨notes, rfl⟩
      · exact ⟨second, within⟩
      · refine ⟨continues_empty second, Producer.grounded_of_alone ?_, within⟩
        rintro s node resume ⟨⟩
  have idle : (store.pushed ⟨#[value], frontier⟩).Idle (store.spines.size + 1) := by
    intro id spine older present
    rcases Store.pushed_cases present with ⟨older, present⟩ | ⟨rfl, rfl⟩
    · exact ready.idle id spine older present
    · rcases leads with rfl | ⟨notes, rfl⟩ <;> exact fun running => by cases running
  refine ⟨⟨fits, by rwa [Store.size_spines_pushed]⟩, agree, ?_, Store.size_le_pushed⟩
  rw [Store.size_spines_pushed]
  exact Nat.le_succ _

theorem returns_single (ready : store.Ready M) (known : t.Known c store M)
    (leads : Leads frontier t) :
    (single value frontier).Returns store M fun s store' M' =>
      s.Known (fun n => (c n).cons value) store' M' := by
  obtain ⟨N, agree, descends, first, second⟩ :=
    exists_single value ready.fits.descends known.has
  have leaves := leads.leaves ready known.has agree descends first second
  refine ⟨some ⟨value, store.spines.size, 0⟩, _, N, ⟨0, fun _ _ => rfl⟩, leaves, ?_, ?_⟩
  · have inside : 0 < (store.pushed ⟨#[value], frontier⟩).size store.spines.size := by
      rw [Store.size_eq Store.getElem?_pushed_new]
      exact Nat.one_pos
    have older : store.spines.size < (store.pushed ⟨#[value], frontier⟩).spines.size := by
      rw [Store.size_spines_pushed]
      exact Nat.lt_succ_self _
    rintro cell ⟨⟩
    exact ⟨older, inside⟩
  · have shown (n : Nat) : N.shown (n + 1) (some ⟨value, store.spines.size, 0⟩) =
        (N.shown n t).cons value := by
      rw [Meaning.shown, Meaning.after, second]
      rfl
    have tail := (known.later ready leaves).denotes
    exact (Listing.sameLimit_of_shift 1 Meaning.shown_mono shown).trans
      (tail.map fun _ _ => Listing.cons_le)

theorem makes_prepend (ready : store.Ready M) (known : t.Known c store M) :
    (t.prepend value : Lazy ω ν (Sequence ν)).Makes store M fun n => (c n).cons value :=
  makes_of_returns steady_single (returns_single ready known (Or.inl rfl))

theorem makes_cons {notes : List ω} (ready : store.Ready M) (known : t.Known c store M) :
    (cons value ⟨notes, t⟩).Makes store M fun n => (c n).cons value :=
  makes_of_returns steady_single (returns_single ready known (Or.inr ⟨notes, rfl⟩))

end Single

section Share
variable {source : Producer ω ν ν} {tail : Noted ω (Sequence ν)}

/-- A shared producer makes a sequence of what it gives, with the tail behind it. -/
theorem makes_shareBefore (ready : store.Ready M)
    (shareable : Producer.Shareable store source tail)
    (limit : Listing.SameLimit (fun n =>
      (Producer.given M source.step n source.state).append (M.shown n tail.value)) c) :
    (source.shareBefore tail).Makes store M c where
  came fuel s store' result := by
    have shared := Producer.shared_of_eq_some ready shareable result
    exact ⟨_, shared.leaves, shared.has, shared.denotes.trans limit⟩
  comes d headed := by
    obtain ⟨n, headed'⟩ := (limit.symm.headed headed).exists
    obtain ⟨r, reached, -⟩ := Producer.reaches_of_given (Listing.isHeaded_of_append headed')
    exact Producer.shareBefore_settles ready shareable reached

theorem makes_share (ready : store.Ready M)
    (grounded : Producer.Grounded store.spines.size source.step store.size source.state)
    (limit : Listing.SameLimit (fun n => Producer.given M source.step n source.state) c) :
    source.share.Makes store M c := by
  apply makes_shareBefore ready (Producer.shareable_of_grounded grounded)
  have ended : M.Denotes none fun _ => .whole [] := (known_empty : Known none _ store M).denotes
  have alone := limit.append ended
  simp only [Listing.append_nil] at alone
  exact alone

theorem makes_appendWith {notes : List ω} {d : Nat → Listing ν} (ready : store.Ready M)
    (first : s.Known c store M) (second : t.Known d store M) :
    (s.appendWith ⟨notes, t⟩).Makes store M fun n => (c n).append (d n) :=
  makes_shareBefore ready ⟨Producer.grounded_reading first.has, second.has⟩
    ((Producer.sameLimit_reading.trans first.denotes).append second.denotes)

end Share

section Rest

theorem makes_rest (ready : store.Ready M) (known : s.Known c store M) :
    (rest s : Lazy ω ν (Sequence ν)).Makes store M fun n => (c n).rest := by
  have limit := known.denotes.map fun _ _ => Listing.rest_le
  cases s with
  | none =>
    refine makes_pure ready ⟨within_none, Listing.SameLimit.trans ?_ limit⟩
    have same (n : Nat) : M.shown n none = (M.shown n none).rest := by cases n <;> rfl
    simp only [← same]
    exact M.denotes_shown none
  | some cell =>
    constructor
    · intro fuel t store' result
      obtain ⟨leaves, has, follows⟩ := after_of_rest ready known.has result
      refine ⟨M, leaves, has, Listing.SameLimit.trans (.symm ?_) limit⟩
      apply Listing.sameLimit_of_shift 1
      · exact fun _ _ later => Listing.rest_le (Meaning.shown_mono later)
      · intro n
        rw [Meaning.shown, follows]
        rfl
    · intro d headed
      obtain ⟨n, headed'⟩ := (limit.symm.headed headed).exists
      cases n with
      | zero => cases headed'
      | succ n =>
        cases follows : M.after cell.node with
        | none =>
          rw [Meaning.shown, follows] at headed'
          cases headed'
        | some t =>
          obtain ⟨t, store', M', settles, -⟩ := returns_after ready known.has follows
          exact ⟨(t, store'), settles⟩

end Rest

section DropWhile
variable {drop : ν → Noted ω Bool}

private theorem dropWhile_shown_kept {cell : Cell ν} (kept : (drop cell.value).value = false)
    (n : Nat) : (M.shown n (some cell)).dropWhile (fun value => (drop value).value) =
      M.shown n (some cell) := by
  cases n with
  | zero => rfl
  | succ n => exact Listing.dropWhile_cons_kept kept

private theorem dropWhile_shown_dropped {cell : Cell ν} (dropped : (drop cell.value).value = true)
    (n : Nat) : (M.shown (n + 1) (some cell)).dropWhile (fun value => (drop value).value) =
      ((M.after cell.node).elim .unknown (M.shown n)).dropWhile fun value => (drop value).value :=
  Listing.dropWhile_cons_dropped dropped

theorem returns_dropWhile {n : Nat} (ready : store.Ready M) (has : store.Has s)
    (limit : Listing.SameLimit
      (fun n => (M.shown n s).dropWhile fun value => (drop value).value) c)
    (headed : ((M.shown n s).dropWhile fun value => (drop value).value).isHeaded = true) :
    (s.dropWhile drop).Returns store M fun t store' M' => t.Known c store' M' := by
  refine Lazy.returns_iterate (I := fun rounds t store M => store.Has t ∧
    Listing.SameLimit (fun n => (M.shown n t).dropWhile fun value => (drop value).value) c ∧
      ((M.shown rounds t).dropWhile fun value => (drop value).value).isHeaded = true) ?_ ready
    ⟨has, limit, headed⟩
  intro rounds t store M ready inside
  obtain ⟨has, limit, headed⟩ := inside
  cases t with
  | none =>
    refine Lazy.returns_pure ready ⟨within_none, Listing.SameLimit.trans ?_ limit⟩
    have same (n : Nat) : (M.shown n none).dropWhile (fun value => (drop value).value) =
        M.shown n none := by cases n <;> rfl
    simp only [same]
    exact M.denotes_shown none
  | some cell =>
    have logged := Lazy.leaves_log (drop cell.value).notes ready
    apply Lazy.returns_noted ready
    cases dropped : (drop cell.value).value with
    | false =>
      refine Lazy.returns_pure logged.ready ⟨logged.has has, Listing.SameLimit.trans ?_ limit⟩
      simp only [dropWhile_shown_kept dropped]
      exact M.denotes_shown (some cell)
    | true =>
      cases rounds with
      | zero => cases headed
      | succ rounds =>
        rw [dropWhile_shown_dropped dropped] at headed
        cases follows : M.after cell.node with
        | none =>
          rw [follows] at headed
          cases headed
        | some next =>
          rw [follows] at headed
          apply (returns_after logged.ready (logged.has has) follows).bind
          rintro next' store' M' leaves ⟨rfl, rfl, has'⟩
          refine Lazy.returns_pure leaves.ready ⟨rounds, Nat.lt_succ_self _, has', ?_, headed⟩
          refine Listing.SameLimit.trans (.symm ?_) limit
          apply Listing.sameLimit_of_shift 1
          · exact fun _ _ later => Listing.dropWhile_le (Meaning.shown_mono later)
          · intro n
            rw [dropWhile_shown_dropped dropped, follows]
            rfl

theorem steady_drop (drop : ν → Noted ω Bool) (s : Sequence ν) :
    Lazy.Steady (match s with
    | none => (pure (.inr none) : Lazy ω ν (Sequence ν ⊕ Sequence ν))
    | some cell => do
      if ← Lazy.noted (drop cell.value) then
        let tail ← rest s
        pure (.inl tail)
      else pure (.inr s)) := by
  cases s with
  | none => exact Lazy.steady_pure
  | some cell =>
    apply Lazy.steady_noted.bind
    rintro (_ | _)
    · exact Lazy.steady_pure
    · exact steady_rest.bind fun _ => Lazy.steady_pure

theorem steady_dropWhile : (s.dropWhile drop).Steady := Lazy.Steady.iterate (steady_drop drop)

theorem headed_of_dropWhile {fuel : Nat} {store' : Store ω ν} (ready : store.Ready M)
    (has : store.Has s) (result : s.dropWhile drop fuel store = some (t, store')) :
    ∃ n, ((M.shown n s).dropWhile fun value => (drop value).value).isHeaded = true := by
  refine Lazy.post_of_iterate (I := fun t store' => store'.Ready M ∧ store'.Has t ∧
    ((∃ n, ((M.shown n t).dropWhile fun value => (drop value).value).isHeaded = true) →
      ∃ n, ((M.shown n s).dropWhile fun value => (drop value).value).isHeaded = true))
    (P := fun _ _ => ∃ n, ((M.shown n s).dropWhile fun value => (drop value).value).isHeaded = true)
    ?_ ⟨ready, has, id⟩ result
  rintro (_ | cell) store₁ r store₂ ⟨ready, has, back⟩ step
  · cases step
    exact back ⟨1, rfl⟩
  · obtain ⟨dropped, store₃, noted, step⟩ := Lazy.bind_eq_some.mp step
    cases noted
    have logged := Lazy.leaves_log (drop cell.value).notes ready
    cases dropped : (drop cell.value).value with
    | false =>
      simp only [dropped] at step
      cases step
      refine back ⟨1, ?_⟩
      rw [dropWhile_shown_kept dropped]
      exact Meaning.isHeaded_shown
    | true =>
      simp only [dropped] at step
      obtain ⟨next, store₄, looked, same⟩ := Lazy.bind_eq_some.mp step
      cases same
      obtain ⟨leaves, has', follows⟩ := after_of_rest logged.ready (logged.has has) looked
      refine ⟨leaves.ready, has', fun ⟨n, headed⟩ => back ⟨n + 1, ?_⟩⟩
      rw [dropWhile_shown_dropped dropped, follows]
      exact headed

theorem makes_dropWhile (ready : store.Ready M) (known : s.Known c store M) :
    (s.dropWhile drop).Makes store M fun n =>
      (c n).dropWhile fun value => (drop value).value := by
  have limit : Listing.SameLimit (fun n => (M.shown n s).dropWhile fun value => (drop value).value)
      fun n => (c n).dropWhile fun value => (drop value).value :=
    known.denotes.map fun _ _ => Listing.dropWhile_le
  constructor
  · intro fuel t store' result
    obtain ⟨n, headed⟩ := headed_of_dropWhile ready known.has result
    obtain ⟨M', leaves, known'⟩ :=
      (returns_dropWhile ready known.has limit headed).of_eq_some steady_dropWhile result
    exact ⟨M', leaves, known'.has, known'.denotes⟩
  · intro d headed
    obtain ⟨n, headed'⟩ := (limit.symm.headed headed).exists
    obtain ⟨t, store', M', settles, -⟩ := returns_dropWhile ready known.has limit headed'
    exact ⟨(t, store'), settles⟩

end DropWhile

section Reverse

theorem steady_prependAll (items : List ν) (t : Sequence ν) :
    (items.foldlM (fun reversed value => prepend reversed value) t :
      Lazy ω ν (Sequence ν)).Steady := by
  induction items generalizing t with
  | nil => exact Lazy.steady_pure
  | cons item items ih =>
    rw [List.foldlM_cons]
    exact steady_single.bind ih

theorem returns_prependAll (items : List ν) (ready : store.Ready M) (known : t.Known c store M) :
    (items.foldlM (fun reversed value => prepend reversed value) t :
      Lazy ω ν (Sequence ν)).Returns store M fun s store' M' =>
        s.Known (fun n => (Listing.whole items.reverse).append (c n)) store' M' := by
  induction items generalizing t c store M with
  | nil => exact Lazy.returns_pure ready known
  | cons item items ih =>
    rw [List.foldlM_cons]
    apply (returns_single ready known (Or.inl rfl)).bind
    intro s store' M' leaves known'
    have same (n : Nat) : (Listing.whole items.reverse).append ((c n).cons item) =
        (Listing.whole (item :: items).reverse).append (c n) := by
      simp [Listing.append, Listing.whole, Listing.cons]
    have rest := ih leaves.ready known'
    simp only [same] at rest
    exact rest

theorem returns_reverse {values : List ν} (ready : store.Ready M) (lists : s.Lists values store M) :
    (s.reverse : Lazy ω ν (Sequence ν)).Returns store M fun t store' M' =>
      t.Known (fun _ => .whole values.reverse) store' M' := by
  apply (returns_toList ready lists).bind
  rintro items store' M' leaves rfl
  have all := returns_prependAll (c := fun _ => .whole []) items leaves.ready known_empty
  simp only [Listing.append_nil] at all
  exact all

theorem makes_reverse (ready : store.Ready M) (known : s.Known c store M) :
    (s.reverse : Lazy ω ν (Sequence ν)).Makes store M fun n => (c n).reverse := by
  have limit {values : List ν} (holds : M.Holds s values) :
      Listing.SameLimit (fun _ => .whole values.reverse) fun n => (c n).reverse := by
    obtain ⟨n, whole⟩ := Meaning.holds_iff.mp holds
    have mono : Monotone fun n => (M.shown n s).reverse :=
      fun _ _ later => Listing.reverse_le (Meaning.shown_mono later)
    have ends : (M.shown n s).reverse = .whole values.reverse := by
      rw [whole]
      rfl
    exact (Listing.sameLimit_whole mono ends).trans (known.denotes.map fun _ _ => Listing.reverse_le)
  have steady : (s.reverse : Lazy ω ν (Sequence ν)).Steady :=
    (steady_foldM.bind fun _ => Lazy.steady_pure).bind fun items => steady_prependAll items none
  constructor
  · intro fuel t store' result
    obtain ⟨items, store₁, listed, -⟩ := Lazy.bind_eq_some.mp result
    obtain ⟨array, store₂, folded, -⟩ := Lazy.bind_eq_some.mp listed
    obtain ⟨values, holds⟩ := holds_of_foldM ready known.has folded
    obtain ⟨M', leaves, known'⟩ :=
      (returns_reverse ready ⟨known.has, holds⟩).of_eq_some steady result
    exact ⟨M', leaves, known'.has, known'.denotes.trans (limit holds)⟩
  · intro d headed
    obtain ⟨values, whole⟩ := Listing.whole_of_isHeaded_reverse headed
    obtain ⟨n, shown⟩ := (known.denotes.symm.whole whole).exists
    obtain ⟨t, store', M', settles, -⟩ := returns_reverse (ω := ω) ready
      ⟨known.has, Meaning.holds_iff.mpr ⟨n, shown⟩⟩
    exact ⟨(t, store'), settles⟩

end Reverse

end Sequence

end DemandLex
