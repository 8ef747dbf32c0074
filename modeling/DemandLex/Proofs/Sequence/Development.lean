import DemandLex.Proofs.Sequence.Following
import DemandLex.Proofs.Sequence.Making
import DemandLex.Proofs.Sequence.Once

/-! What computations do to a store, one thing after another: they take notes, look behind a node,
share a producer, or put up a spine of one element. So what each of these keeps every computation
keeps. -/

namespace DemandLex

variable {ω ν α β : Type} {M : Meaning ν} {mine : ω → Bool} {store store' : Store ω ν}

namespace Store

/-- A store goes over into another, and no note of one's own is taken on the way. -/
inductive Develops (mine : ω → Bool) (store : Store ω ν) (M : Meaning ν) :
    Store ω ν → Meaning ν → Prop
  | refl : Develops mine store M store M
  | note {store' : Store ω ν} {M' : Meaning ν} {notes : List ω}
      (first : Develops mine store M store' M') (silent : ∀ note ∈ notes, mine note = false) :
      Develops mine store M (store'.log notes) M'
  | look {store' last : Store ω ν} {M' : Meaning ν} {cell : Cell ν} {fuel : Nat} {q : Sequence ν}
      (first : Develops mine store M store' M') (has : store'.Has (some cell))
      (result : rest fuel cell.node store' = some (q, last)) : Develops mine store M last M'
  | share {store' last : Store ω ν} {M' : Meaning ν} {source : Producer ω ν ν}
      {tail : Noted ω (Sequence ν)} {fuel : Nat} {q : Sequence ν}
      (first : Develops mine store M store' M')
      (shareable : Producer.Shareable store' source tail)
      (silent : Producer.Silent mine source.step) (silent' : tail.Silent mine)
      (result : source.shareBefore tail fuel store' = some (q, last)) :
      Develops mine store M last (Producer.meaningWith M' store' source tail)
  | single {store' : Store ω ν} {M' N : Meaning ν} {spine : Spine ω ν}
      (first : Develops mine store M store' M') (silent : spine.frontier.Silent mine)
      (leaves : store'.Leaves M' (store'.pushed spine) N) :
      Develops mine store M (store'.pushed spine) N

namespace Develops

variable {M' : Meaning ν}

theorem trans {last : Store ω ν} {N : Meaning ν} (first : store.Develops mine M store' M')
    (second : store'.Develops mine M' last N) : store.Develops mine M last N := by
  induction second with
  | refl => exact first
  | note _ silent ih => exact ih.note silent
  | look _ has result ih => exact ih.look has result
  | share _ shareable silent silent' result ih => exact ih.share shareable silent silent' result
  | single _ silent leaves ih => exact ih.single silent leaves

theorem leaves (develops : store.Develops mine M store' M') (ready : store.Ready M) :
    store.Leaves M store' M' := by
  induction develops with
  | refl => exact .refl ready
  | note _ silent ih => exact ih.trans (Lazy.leaves_log _ ih.ready)
  | look _ has result ih =>
    exact ih.trans ((found_of_rest (ih.ready.asking has) result).leaves ih.ready (has _ rfl).1).1
  | share _ shareable silent silent' result ih =>
    exact ih.trans (Producer.shared_of_eq_some ih.ready shareable result).leaves
  | single _ silent leaves ih => exact ih.trans leaves

theorem adds (develops : store.Develops mine M store' M') : store.Adds store' := by
  induction develops with
  | refl => exact .refl store
  | note _ silent ih => exact ih.trans (adds_log _)
  | look _ has result ih => exact ih.trans ((adds_of_eq_some _).1 result)
  | share _ shareable silent silent' result ih =>
    have extended := (adds_of_eq_some _).2 result
    exact ih.trans ⟨extended.notes, extended.runs⟩
  | single _ silent leaves ih => exact ⟨ih.notes, ih.runs⟩

theorem once (develops : store.Develops mine M store' M') (ready : store.Ready M)
    (once : store.Once) : store'.Once := by
  induction develops with
  | refl => exact once
  | note _ silent ih => exact ih.log _
  | look first has result ih => exact ih.rest ((first.leaves ready).ready.asking has) result
  | share first shareable silent silent' result ih =>
    exact ih.share (first.leaves ready).ready shareable result
  | single _ silent leaves ih => exact ih.pushed

theorem quiet (develops : store.Develops mine M store' M') (ready : store.Ready M)
    (quiet : store.Quiet mine fun _ => True) :
    store'.Quiet mine (fun _ => True) ∧ store'.heard mine = store.heard mine := by
  induction develops with
  | refl => exact ⟨quiet, rfl⟩
  | note _ silent ih => exact ⟨ih.1, (heard_log_silent silent).trans ih.2⟩
  | look first has result ih =>
    obtain ⟨quiet', heard⟩ :=
      ih.1.rest ((first.leaves ready).ready.asking has) (fun _ _ => trivial) result
    exact ⟨quiet', heard.trans ih.2⟩
  | share first shareable silent silent' result ih =>
    obtain ⟨quiet', heard⟩ := ih.1.share (fun _ _ => trivial) (first.leaves ready).ready shareable
      silent silent' result
    exact ⟨quiet', heard.trans ih.2⟩
  | single _ silent leaves ih => exact ⟨ih.1.pushed silent, ih.2⟩

theorem tracks {K : Meaning ν} {id : Nat} {source : Producer ω ν ν} {tail : Noted ω (Sequence ν)}
    (develops : store.Develops mine M store' M') (ready : store.Ready M)
    (tracks : store.Tracks mine K id source tail) (agree : K.Agree M id) :
    store'.Tracks mine K id source tail := by
  have older := tracks.older
  induction develops with
  | refl => exact tracks
  | note _ silent ih => exact ih.log silent
  | look first has result ih =>
    have leaves := first.leaves ready
    exact ih.rest (agree.trans (leaves.agree.weaken older.le) le_rfl) (leaves.ready.asking has) result
  | share first shareable silent silent' result ih =>
    have leaves := first.leaves ready
    exact ih.share (agree.trans (leaves.agree.weaken older.le) le_rfl) leaves.ready shareable silent
      silent' result
  | single _ silent leaves ih => exact ih.pushed silent

end Develops

end Store

namespace Lazy

/-- Wherever the computation comes back, the store has developed, and the result satisfies `post`. -/
def Works (mine : ω → Bool) (x : Lazy ω ν α) (store : Store ω ν) (M : Meaning ν)
    (post : α → Store ω ν → Prop) : Prop :=
  ∀ fuel value store', x fuel store = some (value, store') →
    ∃ M', store.Develops mine M store' M' ∧ post value store'

section Works
variable {x : Lazy ω ν α} {post post' : α → Store ω ν → Prop}

theorem works_pure {value : α} (found : post value store) :
    (pure value : Lazy ω ν α).Works mine store M post := by
  rintro fuel value' store' ⟨⟩
  exact ⟨M, .refl, found⟩

theorem Works.bind {f : α → Lazy ω ν β} {goal : β → Store ω ν → Prop} (ready : store.Ready M)
    (works : x.Works mine store M post)
    (next : ∀ value store' M', store.Leaves M store' M' → post value store' →
      (f value).Works mine store' M' goal) : (x >>= f).Works mine store M goal := by
  intro fuel value store' result
  obtain ⟨first, store₁, came, result⟩ := bind_eq_some.mp result
  obtain ⟨M₁, develops, found⟩ := works fuel first store₁ came
  obtain ⟨M', develops', found'⟩ :=
    next first store₁ M₁ (develops.leaves ready) found fuel value store' result
  exact ⟨M', develops.trans develops', found'⟩

theorem Works.map {f : α → β} (ready : store.Ready M) (works : x.Works mine store M post) :
    (f <$> x).Works mine store M fun _ _ => True := by
  rw [map_eq_pure_bind]
  exact works.bind ready fun _ _ _ _ _ => works_pure trivial

theorem works_noted {step : Noted ω α} (silent : step.Silent mine) :
    (noted step : Lazy ω ν α).Works mine store M fun value store' =>
      value = step.value ∧ store' = store.log step.notes := by
  rintro fuel value store' ⟨⟩
  exact ⟨M, Store.Develops.refl.note silent, rfl, rfl⟩

theorem works_iterate {step : β → Lazy ω ν (β ⊕ α)} {I : β → Store ω ν → Prop} {start : β}
    (round : ∀ state store M, store.Ready M → I state store →
      (step state).Works mine store M fun r store' =>
        match r with
        | .inl next => I next store'
        | .inr result => post result store') (ready : store.Ready M) (holds : I start store) :
    (iterate step start).Works mine store M post := by
  intro fuel value store' result
  suffices ∀ left state store M, store.Ready M → I state store →
      iterate.go step fuel left state store = some (value, store') →
        ∃ M', store.Develops mine M store' M' ∧ post value store' from
    this fuel start store M ready holds result
  intro left
  induction left with
  | zero =>
    intro state store M _ _ result
    cases result
  | succ left ih =>
    intro state store M ready holds result
    rw [iterate.go] at result
    split at result
    · cases result
    · rename_i next store₁ stepped
      obtain ⟨M₁, develops, holds'⟩ := round state store M ready holds fuel _ _ stepped
      obtain ⟨M', develops', found⟩ :=
        ih next store₁ M₁ (develops.leaves ready).ready holds' result
      exact ⟨M', develops.trans develops', found⟩
    · rename_i final store₁ stepped
      cases result
      exact round state store M ready holds fuel _ _ stepped

end Works

end Lazy

namespace Sequence

variable {s t : Sequence ν}

section Making

theorem works_shareBefore {source : Producer ω ν ν} {tail : Noted ω (Sequence ν)}
    (ready : store.Ready M) (shareable : Producer.Shareable store source tail)
    (silent : Producer.Silent mine source.step) (silent' : tail.Silent mine) :
    (source.shareBefore tail).Works mine store M fun t store' => store'.Has t := by
  intro fuel t store' result
  exact ⟨_, Store.Develops.refl.share shareable silent silent' result,
    (Producer.shared_of_eq_some ready shareable result).has⟩

theorem works_share {source : Producer ω ν ν} (ready : store.Ready M)
    (grounded : Producer.Grounded store.spines.size source.step store.size source.state)
    (silent : Producer.Silent mine source.step) :
    source.share.Works mine store M fun t store' => store'.Has t :=
  works_shareBefore ready (Producer.shareable_of_grounded grounded) silent Noted.silent_pure

theorem works_single {value : ν} {frontier : Frontier ω ν} (ready : store.Ready M)
    (has : store.Has t) (leads : Leads frontier t) (silent : frontier.Silent mine) :
    (single value frontier).Works mine store M fun s store' => store'.Has s := by
  intro fuel s store' result
  have known : t.Known (fun n => M.shown n t) store M := ⟨has, M.denotes_shown t⟩
  have returns : (single value frontier).Returns store M _ := returns_single ready known leads
  obtain ⟨M', leaves, known'⟩ := returns.of_eq_some steady_single result
  cases result
  exact ⟨M', Store.Develops.refl.single silent leaves, known'.has⟩

theorem works_rest (ready : store.Ready M) (has : store.Has s) :
    (rest s : Lazy ω ν (Sequence ν)).Works mine store M fun t store' => store'.Has t := by
  cases s with
  | none => exact Lazy.works_pure within_none
  | some cell =>
    intro fuel t store' result
    exact ⟨M, Store.Develops.refl.look has result, (after_of_rest ready has result).2.1⟩

theorem works_dropWhile {drop : ν → Noted ω Bool} (silent : ∀ value, (drop value).Silent mine)
    (ready : store.Ready M) (has : store.Has s) :
    (s.dropWhile drop).Works mine store M fun t store' => store'.Has t := by
  refine Lazy.works_iterate (I := fun s store => store.Has s) ?_ ready has
  rintro (_ | cell) store M ready has
  · exact Lazy.works_pure has
  · apply (Lazy.works_noted (silent cell.value)).bind ready
    rintro value store' M' leaves ⟨rfl, rfl⟩
    cases (drop cell.value).value with
    | false => exact Lazy.works_pure (leaves.has has)
    | true =>
      apply (works_rest leaves.ready (leaves.has has)).bind leaves.ready
      intro t store₂ M₂ _ has'
      exact Lazy.works_pure has'

end Making

section Asking

theorem works_splitFirst (ready : store.Ready M) (has : store.Has s) :
    (s.splitFirst : Lazy ω ν _).Works mine store M fun _ _ => True := by
  cases s with
  | none => exact Lazy.works_pure trivial
  | some cell => exact (works_rest ready has).bind ready fun _ _ _ _ _ => Lazy.works_pure trivial

theorem works_foldM {f : α → ν → Noted ω α} {start : α}
    (silent : ∀ reduced value, (f reduced value).Silent mine) (ready : store.Ready M)
    (has : store.Has s) : (s.foldM start f).Works mine store M fun _ _ => True := by
  refine Lazy.works_iterate (I := fun state store => store.Has state.2) ?_ ready has
  rintro ⟨reduced, _ | cell⟩ store M ready has
  · exact Lazy.works_pure trivial
  · apply (Lazy.works_noted (silent reduced cell.value)).bind ready
    rintro next store' M' leaves -
    apply (works_rest leaves.ready (leaves.has has)).bind leaves.ready
    intro t store₂ M₂ _ has'
    exact Lazy.works_pure has'

theorem works_toList (ready : store.Ready M) (has : store.Has s) :
    (s.toList : Lazy ω ν (List ν)).Works mine store M fun _ _ => True := by
  apply (works_foldM (fun _ _ => Noted.silent_pure) ready has).bind ready
  intro items store' M' leaves _
  exact Lazy.works_pure trivial

theorem works_iterateWhile {visit : α → ν → α × Bool} {count : Option Nat} {start : α}
    (ready : store.Ready M) (has : store.Has s) :
    (s.iterateWhile count start visit : Lazy ω ν α).Works mine store M fun _ _ => True := by
  refine Lazy.works_iterate (I := fun state store => store.Has state.2.2) ?_ ready has
  rintro ⟨state, left, t⟩ store M ready has
  cases t with
  | none => rcases left with _ | _ | left <;> exact Lazy.works_pure trivial
  | some cell =>
    rcases left with _ | _ | left
    case some.zero => exact Lazy.works_pure trivial
    all_goals
      apply (works_rest ready has).bind ready
      intro t store' M' _ has'
      apply Lazy.works_pure
      cases (visit state cell.value).2 with
      | false => exact trivial
      | true => exact has'

theorem works_equal {same : ν → ν → Bool} (ready : store.Ready M) (has : store.Has s)
    (has' : store.Has t) : (s.equal same t : Lazy ω ν Bool).Works mine store M fun _ _ => True := by
  refine Lazy.works_iterate (I := fun state store => store.Has state.1 ∧ store.Has state.2) ?_ ready
    ⟨has, has'⟩
  rintro ⟨_ | left, _ | right⟩ store M ready ⟨has, has'⟩
  · exact Lazy.works_pure trivial
  · exact Lazy.works_pure trivial
  · exact Lazy.works_pure trivial
  · dsimp only
    split
    · exact Lazy.works_pure trivial
    · split
      · exact Lazy.works_pure trivial
      · apply (works_rest ready has).bind ready
        intro s store₁ M₁ leaves₁ first
        apply (works_rest leaves₁.ready (leaves₁.has has')).bind leaves₁.ready
        intro t store₂ M₂ leaves₂ second
        exact Lazy.works_pure ⟨leaves₂.has first, second⟩

end Asking

section Reverse

theorem works_prependAll (items : List ν) (ready : store.Ready M) (has : store.Has t) :
    (items.foldlM (fun reversed value => prepend reversed value) t :
      Lazy ω ν (Sequence ν)).Works mine store M fun s store' => store'.Has s := by
  induction items generalizing t store M with
  | nil => exact Lazy.works_pure has
  | cons item items ih =>
    rw [List.foldlM_cons]
    apply (works_single ready has (Or.inl rfl) trivial).bind ready
    intro s store' M' leaves has'
    exact ih leaves.ready has'

theorem works_reverse (ready : store.Ready M) (has : store.Has s) :
    (s.reverse : Lazy ω ν (Sequence ν)).Works mine store M fun t store' => store'.Has t := by
  apply (works_toList ready has).bind ready
  intro items store' M' leaves _
  exact works_prependAll items leaves.ready within_none

end Reverse

section Heard
variable {drop : ν → Noted ω Bool}

theorem whileNotes_dropped {values later : List ν}
    (dropped : ∀ value ∈ values, (drop value).value = true) :
    Producer.whileNotes drop (values ++ later) =
      (values.flatMap fun value => (drop value).notes) ++ Producer.whileNotes drop later := by
  induction values with
  | nil => rfl
  | cons value values ih =>
    rw [List.cons_append, Producer.whileNotes, if_pos (dropped value List.mem_cons_self),
      ih fun value inside => dropped value (List.mem_cons_of_mem _ inside), List.flatMap_cons,
      List.append_assoc]

theorem heard_of_dropWhile {fuel : Nat} (ready : store.Ready M) (has : store.Has s)
    (quiet : store.Quiet mine fun _ => True) (unheard : store.heard mine = [])
    (result : s.dropWhile drop fuel store = some (t, store')) :
    store'.Quiet mine (fun _ => True) ∧
      ∃ n, store'.heard mine <+: (Producer.whileNotes drop (M.shown n s).known).filter mine := by
  refine Lazy.post_of_iterate (I := fun t store' => store'.Ready M ∧ store'.Has t ∧
    store'.Quiet mine (fun _ => True) ∧ ∃ values, M.Passes s values t ∧
      (∀ value ∈ values, (drop value).value = true) ∧
      store'.heard mine = (values.flatMap fun value => (drop value).notes).filter mine)
    (P := fun _ store' => store'.Quiet mine (fun _ => True) ∧
      ∃ n, store'.heard mine <+: (Producer.whileNotes drop (M.shown n s).known).filter mine)
    ?_ ⟨ready, has, quiet, [], .nil, by simp, unheard⟩ result
  -- what is known of the sequence where so many elements of it have been dropped
  have known {values : List ν} {t : Sequence ν} (passes : M.Passes s values t)
      (dropped : ∀ value ∈ values, (drop value).value = true) :
      Producer.whileNotes drop (M.shown (1 + values.length) s).known =
        (values.flatMap fun value => (drop value).notes) ++
          Producer.whileNotes drop (M.shown 1 t).known := by
    rw [passes.shown, ← whileNotes_dropped dropped]
    rfl
  rintro (_ | cell) store₁ r store₂ ⟨ready, has, quiet, values, passes, dropped, heard⟩ step
  · cases step
    refine ⟨quiet, 1 + values.length, ?_⟩
    rw [known passes dropped, heard]
    exact (List.prefix_append ..).filter mine
  · obtain ⟨more, store₃, noted, step⟩ := Lazy.bind_eq_some.mp step
    cases noted
    have logged := Lazy.leaves_log (drop cell.value).notes ready
    have heard' : (store₁.log (drop cell.value).notes).heard mine =
        ((values.flatMap fun value => (drop value).notes) ++ (drop cell.value).notes).filter mine := by
      rw [Store.heard_log, heard, List.filter_append]
    cases kept : (drop cell.value).value with
    | false =>
      simp only [kept] at step
      cases step
      refine ⟨quiet, 1 + values.length, ?_⟩
      rw [known passes dropped, heard']
      refine List.IsPrefix.filter mine ((List.prefix_append_right_inj _).mpr ?_)
      simp [Meaning.shown, Listing.cons, Producer.whileNotes]
    | true =>
      simp only [kept] at step
      obtain ⟨next, store₄, looked, same⟩ := Lazy.bind_eq_some.mp step
      cases same
      obtain ⟨leaves, has', follows⟩ := after_of_rest logged.ready (logged.has has) looked
      have silent : (store₁.log (drop cell.value).notes).Quiet mine fun _ => True := quiet
      obtain ⟨quiet', same⟩ :=
        silent.rest (logged.ready.asking (logged.has has)) (fun _ _ => trivial) looked
      refine ⟨leaves.ready, has', quiet', values ++ [cell.value], passes.concat follows, ?_, ?_⟩
      · intro value inside
        rcases List.mem_append.mp inside with inside | last
        · exact dropped value inside
        · rw [List.mem_singleton.mp last, kept]
      · rw [same, heard', List.flatMap_append, List.flatMap_singleton]

end Heard

end Sequence

end DemandLex
