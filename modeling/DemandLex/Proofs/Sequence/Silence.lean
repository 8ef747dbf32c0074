import DemandLex.Proofs.Sequence.Share

/-! Notes of one's own among those of others. What takes no note of one's own leaves those heard so far
as they are, however much it forces. -/

namespace DemandLex

variable {ω ν α β σ τ : Type} {mine : ω → Bool}

/-- None of the notes is one's own. -/
def Noted.Silent (mine : ω → Bool) (x : Noted ω α) : Prop := ∀ note ∈ x.notes, mine note = false

theorem Noted.Silent.notes_eq_nil {x : Noted ω α} (silent : x.Silent fun _ => true) : x.notes = [] :=
  List.eq_nil_iff_forall_not_mem.mpr fun note inside => by cases silent note inside

theorem Noted.silent_pure {value : α} : (pure value : Noted ω α).Silent mine := by
  rintro note ⟨⟩

theorem Noted.Silent.bind {x : Noted ω α} {f : α → Noted ω β} (first : x.Silent mine)
    (next : ∀ value, (f value).Silent mine) : (x >>= f).Silent mine := by
  intro note inside
  rcases List.mem_append.mp inside with before | behind
  · exact first note before
  · exact next x.value note behind

def Producer.Silent (mine : ω → Bool) (step : σ → Noted ω (Move ν σ α)) : Prop :=
  ∀ s, (step s).Silent mine

namespace Producer

section Operators
variable {p : Producer ω ν α} {start : τ}

theorem silent_reading : Silent mine (reading (ω := ω) (ν := ν)) := fun _ => Noted.silent_pure

theorem silent_play {step : σ → Noted ω (Option (α × σ))} (each : ∀ s, (step s).Silent mine) :
    Silent mine (play (ν := ν) step) := by
  intro s
  apply (each s).bind
  rintro (_ | found)
  · exact Noted.silent_pure
  · exact Noted.silent_pure

theorem silent_playEither {step : σ → Noted ω (Option (ν × σ))} (each : ∀ s, (step s).Silent mine) :
    Silent mine (playEither step) := by
  rintro (r | seed)
  · exact Noted.silent_pure
  · exact (silent_play each seed).bind fun _ => Noted.silent_pure

theorem silent_scanFilter {step : τ → α → Noted ω (τ × Option β)} (source : Silent mine p.step)
    (each : ∀ carried value, (step carried value).Silent mine) :
    Silent mine (p.scanFilter start step).step := by
  rintro ⟨s, carried⟩
  apply (source s).bind
  intro move
  cases move with
  | yield value next =>
    apply (each carried value).bind
    rintro ⟨carried', _ | output⟩
    · exact Noted.silent_pure
    · exact Noted.silent_pure
  | skip | force | done => exact Noted.silent_pure

theorem silent_takeWhile {keep : α → Noted ω Bool} (source : Silent mine p.step)
    (each : ∀ value, (keep value).Silent mine) : Silent mine (p.takeWhile keep).step := by
  intro s
  apply (source s).bind
  intro move
  cases move with
  | yield value next =>
    apply (each value).bind
    rintro (_ | _)
    · exact Noted.silent_pure
    · exact Noted.silent_pure
  | skip | force | done => exact Noted.silent_pure

theorem silent_take {count : Nat} (source : Silent mine p.step) : Silent mine (p.take count).step := by
  rintro ⟨_ | left, s⟩
  · exact Noted.silent_pure
  · apply (source s).bind
    intro move
    cases move <;> exact Noted.silent_pure

theorem silent_append {q : Producer ω ν α} (first : Silent mine p.step) (second : Silent mine q.step) :
    Silent mine (p.append q).step := by
  rintro (s | s)
  · apply (first s).bind
    intro move
    cases move <;> exact Noted.silent_pure
  · exact (second s).bind fun _ => Noted.silent_pure

theorem silent_flatten {p : Producer ω ν σ} {run : σ → Noted ω (Move ν σ α)}
    (source : Silent mine p.step) (each : Silent mine run) : Silent mine (p.flatten run).step := by
  rintro ⟨outer, _ | inner⟩
  · apply (source outer).bind
    intro move
    cases move <;> exact Noted.silent_pure
  · apply (each inner).bind
    intro move
    cases move <;> exact Noted.silent_pure

theorem silent_flatScan {step : τ → α → Noted ω (τ × σ)} {run : σ → Noted ω (Move ν σ β)}
    (source : Silent mine p.step) (each : ∀ carried value, (step carried value).Silent mine)
    (each' : Silent mine run) : Silent mine (p.flatScan start step run).step :=
  silent_flatten
    (silent_scanFilter source fun carried value =>
      (each carried value).bind fun _ => Noted.silent_pure) each'

end Operators

end Producer

def Frontier.Silent (mine : ω → Bool) : Frontier ω ν → Prop
  | .suspended source tail => Producer.Silent mine source.step ∧ tail.Silent mine
  | .running => True
  | .closed _ => True

namespace Store

variable {M : Meaning ν} {store store' : Store ω ν}

def heard (mine : ω → Bool) (store : Store ω ν) : List ω := store.notes.toList.filter mine

def Quiet (mine : ω → Bool) (among : Nat → Prop) (store : Store ω ν) : Prop :=
  ∀ id spine, among id → store.spines[id]? = some spine → spine.frontier.Silent mine

theorem heard_log {notes : List ω} :
    (store.log notes).heard mine = store.heard mine ++ notes.filter mine := by
  rw [heard, toList_notes_log, List.filter_append]
  rfl

theorem heard_log_silent {notes : List ω} (silent : ∀ note ∈ notes, mine note = false) :
    (store.log notes).heard mine = store.heard mine := by
  rw [heard_log, List.filter_eq_nil_iff.mpr fun note inside => by simp [silent note inside],
    List.append_nil]

section Update
variable {among : Nat → Prop} {id : Nat} {spine : Spine ω ν} {f : Spine ω ν → Spine ω ν}

theorem Quiet.modified (quiet : store.Quiet mine among) (found : store.spines[id]? = some spine)
    (changed : store'.spines = store.spines.modify id f) (silent : (f spine).frontier.Silent mine) :
    store'.Quiet mine among := by
  intro other spine' older present
  rw [getElem?_modified found changed] at present
  split at present
  · cases present
    exact silent
  · exact quiet other spine' older present

end Update

/-- What is quiet, and whether anything of one's own is heard, is kept by a look behind a node, which
asks its spine and older ones, and by the extension of a spine. -/
theorem quiet_of_eq_some {among : Nat → Prop} (fuel : Nat) :
    (∀ {node : Node} {store store' : Store ω ν} {q : Sequence ν},
      rest fuel node store = some (q, store') → store.Quiet mine among → Asking M store node →
      (∀ id, id ≤ node.spine → among id) →
      store'.Quiet mine among ∧ store'.heard mine = store.heard mine) ∧
    (∀ {id : Nat} {source : Producer ω ν ν} {tail : Noted ω (Sequence ν)}
      {store store' : Store ω ν} {q : Sequence ν},
      extend fuel id source tail store = some (q, store') → ∀ index, store.Quiet mine among →
      Extending M store ⟨id, index⟩ source tail → (∀ older, older < id → among older) →
      Producer.Silent mine source.step → tail.Silent mine →
      store'.Quiet mine among ∧ store'.heard mine = store.heard mine) := by
  refine forcing_induction
    (P := fun _ node store _ store' => store.Quiet mine among → Asking M store node →
      (∀ id, id ≤ node.spine → among id) →
      store'.Quiet mine among ∧ store'.heard mine = store.heard mine)
    (Q := fun _ id source tail store _ store' => ∀ index, store.Quiet mine among →
      Extending M store ⟨id, index⟩ source tail → (∀ older, older < id → among older) →
      Producer.Silent mine source.step → tail.Silent mine →
      store'.Quiet mine among ∧ store'.heard mine = store.heard mine)
    ?stored ?run ?yield ?skip ?force ?done fuel
  case stored =>
    intro fuel node store q there quiet asking older
    exact ⟨quiet, rfl⟩
  case run =>
    intro fuel node store elements source tail q store' present beyond extended quiet asking older
    obtain ⟨silent, silent'⟩ := quiet _ _ (older _ le_rfl) present
    obtain ⟨extending, -⟩ := asking.extending present (asking.last present beyond)
    have begun : (store.begin node).Quiet mine among :=
      quiet.modified present spines_begin trivial
    exact extended _ begun extending (fun id earlier => older id earlier.le) silent silent'
  case yield =>
    intro fuel id source tail store value next move logged index quiet extending older silent silent'
    obtain ⟨elements, present, -⟩ := extending.running
    refine ⟨quiet.modified present spines_push ⟨silent, silent'⟩, ?_⟩
    exact heard_log_silent (silent source.state)
  case skip =>
    intro fuel id source tail store next q store' move extended index quiet extending older silent
      silent'
    obtain ⟨quiet', heard'⟩ :=
      extended index quiet ((extending.log _).skip move) older silent silent'
    exact ⟨quiet', heard'.trans (heard_log_silent (silent source.state))⟩
  case force =>
    intro fuel id source tail store node resume q middle q' store' move answered answers extended
      index quiet extending older silent silent'
    have logged := extending.log (source.step source.state).notes
    obtain ⟨before, asking⟩ := logged.asking move
    obtain ⟨quiet₁, heard₁⟩ :=
      answers quiet asking fun id earlier => older id (earlier.trans_lt before)
    obtain ⟨quiet', heard'⟩ := extended index quiet₁
      (logged.resume move (found_of_rest asking answered)) older silent silent'
    exact ⟨quiet', (heard'.trans heard₁).trans (heard_log_silent (silent source.state))⟩
  case done =>
    intro fuel id source tail store move index quiet extending older silent silent'
    obtain ⟨elements, present, -⟩ := extending.running
    refine ⟨quiet.modified present spines_setFrontier trivial, ?_⟩
    exact (heard_log_silent silent').trans (heard_log_silent (silent source.state))

theorem Quiet.rest {among : Nat → Prop} {fuel : Nat} {node : Node} {q : Sequence ν}
    (quiet : store.Quiet mine among) (asking : Asking M store node)
    (older : ∀ id, id ≤ node.spine → among id)
    (result : rest fuel node store = some (q, store')) :
    store'.Quiet mine among ∧ store'.heard mine = store.heard mine :=
  (quiet_of_eq_some fuel).1 result quiet asking older

theorem Quiet.pushed {among : Nat → Prop} {spine : Spine ω ν} (quiet : store.Quiet mine among)
    (silent : spine.frontier.Silent mine) : (store.pushed spine).Quiet mine among := by
  intro id spine' inside present
  rcases pushed_cases present with ⟨-, present⟩ | ⟨-, rfl⟩
  · exact quiet id spine' inside present
  · exact silent

theorem Quiet.share {among : Nat → Prop} {source : Producer ω ν ν} {tail : Noted ω (Sequence ν)}
    {fuel : Nat} {q : Sequence ν} (quiet : store.Quiet mine among)
    (older : ∀ id, id < store.spines.size → among id) (ready : store.Ready M)
    (shareable : Producer.Shareable store source tail) (silent : Producer.Silent mine source.step)
    (silent' : tail.Silent mine)
    (result : source.shareBefore tail fuel store = some (q, store')) :
    store'.Quiet mine among ∧ store'.heard mine = store.heard mine := by
  have begun : (store.pushed ⟨#[], .running⟩).Quiet mine among := quiet.pushed trivial
  have extended : extend fuel store.spines.size source tail (store.pushed ⟨#[], .running⟩) =
      some (q, store') := result
  obtain ⟨quiet', heard'⟩ := (quiet_of_eq_some fuel).2 extended 0 begun
    (Producer.extending_pushed ready shareable) older silent silent'
  exact ⟨quiet', heard'⟩

end Store

end DemandLex
