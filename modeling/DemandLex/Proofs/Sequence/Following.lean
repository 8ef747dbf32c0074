import DemandLex.Proofs.Sequence.Calls

/-! One spine whose producer takes notes, among others that take none of these. The notes heard are
those of the first moves of the producer, each move made once, however often and through whichever
sequences the spine is looked at. -/

namespace DemandLex

variable {ω ν : Type} {M N : Meaning ν} {mine : ω → Bool}

/-- What is left of a producer and its tail behind the first moves, with the notes of these. -/
inductive Frontier.Follows (M : Meaning ν) (source : Producer ω ν ν) (tail : Noted ω (Sequence ν)) :
    List ω → Frontier ω ν → Prop
  | suspended {n : Nat} {s : source.State}
      (reached : Producer.stateAfter M source.step n source.state = some s) :
      Follows M source tail (Producer.notesOf M source.step n source.state).known
        (.suspended { source with state := s } tail)
  | closed {n : Nat} :
      Follows M source tail ((Producer.notesOf M source.step n source.state).known ++ tail.notes)
        (.closed tail.value)

namespace Store

variable {store store' : Store ω ν} {id : Nat} {source : Producer ω ν ν}
  {tail : Noted ω (Sequence ν)} {q : Sequence ν}

structure Tracks (mine : ω → Bool) (M : Meaning ν) (id : Nat) (source : Producer ω ν ν)
    (tail : Noted ω (Sequence ν)) (store : Store ω ν) : Prop where
  present : ∃ spine notes, store.spines[id]? = some spine ∧
    spine.frontier.Follows M source tail notes ∧ store.heard mine = notes.filter mine
  others : store.Quiet mine (· ≠ id)

structure Plays (mine : ω → Bool) (M : Meaning ν) (id : Nat) (source : Producer ω ν ν)
    (s : source.State) (store : Store ω ν) : Prop where
  reached : ∃ n, Producer.stateAfter M source.step n source.state = some s ∧
    store.heard mine = (Producer.notesOf M source.step n source.state).known.filter mine
  others : store.Quiet mine (· ≠ id)

/-- What is heard is the beginning of what the producer and its tail can say. -/
theorem Tracks.heard_prefix (tracks : store.Tracks mine M id source tail) :
    ∃ n, store.heard mine <+:
      ((Producer.notesOf M source.step n source.state).known ++ tail.notes).filter mine := by
  obtain ⟨⟨spine, notes, -, follows, heard⟩, -⟩ := tracks
  rw [heard]
  generalize spine.frontier = frontier at follows
  cases follows with
  | @suspended n s reached => exact ⟨n, (List.prefix_append ..).filter mine⟩
  | @closed n => exact ⟨n, List.prefix_refl _⟩

theorem Tracks.log {notes : List ω} (tracks : store.Tracks mine M id source tail)
    (silent : ∀ note ∈ notes, mine note = false) :
    (store.log notes).Tracks mine M id source tail := by
  obtain ⟨⟨spine, notes, present, follows, heard⟩, others⟩ := tracks
  exact ⟨⟨spine, notes, present, follows, (heard_log_silent silent).trans heard⟩, others⟩

theorem Quiet.rest_older {fuel : Nat} {node : Node} (others : store.Quiet mine (· ≠ id))
    (asking : Asking N store node) (older : node.spine < id)
    (result : Store.rest fuel node store = some (q, store')) :
    store'.Quiet mine (· ≠ id) ∧ store'.heard mine = store.heard mine ∧
      store'.spines[id]? = store.spines[id]? := by
  obtain ⟨others', heard⟩ :=
    others.rest asking (fun other earlier => Nat.ne_of_lt (earlier.trans_lt older)) result
  exact ⟨others', heard, (found_of_rest asking result).grows.same id older⟩

theorem Quiet.modified_own {spine : Spine ω ν} {f : Spine ω ν → Spine ω ν}
    (others : store.Quiet mine (· ≠ id)) (found : store.spines[id]? = some spine)
    (changed : store'.spines = store.spines.modify id f) : store'.Quiet mine (· ≠ id) := by
  intro other spine' differs present
  rw [getElem?_modified found changed, if_neg differs] at present
  exact others other spine' differs present

section Moves
variable {s : source.State}

theorem Plays.skip {next : source.State} (plays : store.Plays mine M id source s)
    (move : (source.step s).value = .skip next) :
    (store.log (source.step s).notes).Plays mine M id source next := by
  obtain ⟨⟨n, reached, heard⟩, others⟩ := plays
  refine ⟨⟨n + 1, ?_, ?_⟩, others⟩
  · rw [Producer.stateAfter_succ, reached, Option.bind_some, move]
    rfl
  · rw [heard_log, heard, Producer.notesOf_succ reached, List.filter_append]

theorem Plays.force {fuel : Nat} {node : Node} {resume : Sequence ν → source.State}
    (plays : store.Plays mine M id source s) (agree : M.Agree N id)
    (move : (source.step s).value = .force node resume) (older : node.spine < id)
    (asking : Asking N (store.log (source.step s).notes) node)
    (result : rest fuel node (store.log (source.step s).notes) = some (q, store')) :
    store'.Plays mine M id source (resume q) := by
  obtain ⟨⟨n, reached, heard⟩, others⟩ := plays
  have follows : N.after node = some q := (found_of_rest asking result).stands
  have logged : (store.log (source.step s).notes).Quiet mine (· ≠ id) := others
  obtain ⟨others', heard', -⟩ := logged.rest_older asking older result
  refine ⟨⟨n + 1, ?_, ?_⟩, others'⟩
  · rw [Producer.stateAfter_succ, reached, Option.bind_some, move, Move.next?,
      agree.symm.after older, follows]
    rfl
  · rw [heard', heard_log, heard, Producer.notesOf_succ reached, List.filter_append]

theorem Plays.halts {place : Node} (plays : store.Plays mine M place.spine source s)
    (extending : Extending N store place { source with state := s } tail)
    (halts : Halts source.step place tail s store q store') :
    store'.Tracks mine M place.spine source tail := by
  obtain ⟨elements, present, count⟩ := extending.running
  obtain ⟨⟨n, reached, heard⟩, others⟩ := plays
  have behind := Producer.notesOf_succ (M := M) reached
  have logged : (store.log (source.step s).notes).heard mine =
      (Producer.notesOf M source.step (n + 1) source.state).known.filter mine := by
    rw [heard_log, heard, behind, List.filter_append]
  cases halts with
  | @yield value next move =>
    have moved : Producer.stateAfter M source.step (n + 1) source.state = some next := by
      rw [Producer.stateAfter_succ, reached, Option.bind_some, move]
      rfl
    exact ⟨⟨_, _, getElem?_push present, .suspended moved, logged⟩,
      others.modified_own present spines_push⟩
  | done move =>
    refine ⟨⟨_, _, getElem?_setFrontier present, .closed (n := n + 1), ?_⟩,
      others.modified_own present spines_setFrontier⟩
    rw [List.filter_append, ← logged]
    exact heard_log

theorem Plays.extend {fuel index : Nat} (plays : store.Plays mine M id source s)
    (agree : M.Agree N id) (extending : Extending N store ⟨id, index⟩ { source with state := s } tail)
    (result : Store.extend fuel id { source with state := s } tail store = some (q, store')) :
    store'.Tracks mine M id source tail := by
  obtain ⟨t, store₁, plays₁, extending₁, halts⟩ := halts_of_extend
    (J := fun s store => store.Plays mine M id source s) extending plays
    (fun s _ next plays move => plays.skip move)
    (fun s _ node resume fuel q _ plays move older asking answered =>
      plays.force agree move older asking answered) result
  exact plays₁.halts extending₁ halts

end Moves

section Rest

theorem Tracks.modified {other : Nat} {spine : Spine ω ν} {f : Spine ω ν → Spine ω ν}
    (tracks : store.Tracks mine M id source tail) (differs : other ≠ id)
    (found : store.spines[other]? = some spine)
    (changed : store'.spines = store.spines.modify other f)
    (same : store'.heard mine = store.heard mine) (silent : (f spine).frontier.Silent mine) :
    store'.Tracks mine M id source tail := by
  obtain ⟨⟨own, notes, present, follows, heard⟩, others⟩ := tracks
  refine ⟨⟨own, notes, ?_, follows, same.trans heard⟩, others.modified found changed silent⟩
  rw [getElem?_modified found changed, if_neg differs.symm, present]

theorem Tracks.halts {σ : Type} {step : σ → Noted ω (Move ν σ ν)} {place : Node}
    {tail' : Noted ω (Sequence ν)} {s : σ} (tracks : store.Tracks mine M id source tail)
    (differs : place.spine ≠ id) (silent : Producer.Silent mine step) (silent' : tail'.Silent mine)
    (extending : Extending N store place ⟨σ, s, step⟩ tail')
    (halts : Halts step place tail' s store q store') : store'.Tracks mine M id source tail := by
  obtain ⟨elements, present, count⟩ := extending.running
  cases halts with
  | @yield value next move =>
    exact tracks.modified differs present spines_push (heard_log_silent (silent s))
      ⟨silent, silent'⟩
  | done move =>
    exact tracks.modified differs present spines_setFrontier
      ((heard_log_silent silent').trans (heard_log_silent (silent s))) trivial

/-- Whatever node is looked behind, the spine goes on from where it was. -/
theorem Tracks.rest {fuel : Nat} {node : Node} (tracks : store.Tracks mine M id source tail)
    (agree : M.Agree N id) (asking : Asking N store node)
    (result : rest fuel node store = some (q, store')) : store'.Tracks mine M id source tail := by
  obtain ⟨bound, same⟩ : ∃ bound, bound = node.spine := ⟨_, rfl⟩
  induction bound using Nat.strongRecOn generalizing fuel node store q store' with
  | ind bound ih =>
    subst same
    cases fuel with
    | zero => simp [Store.rest] at result
    | succ fuel =>
      rcases stored_or_suspended store node with
        ⟨q', there⟩ | ⟨elements, ⟨σ, s, step⟩, tail', found, beyond⟩
      · rw [there.rest_eq] at result
        cases result
        exact tracks
      · obtain ⟨extending, -⟩ := asking.extending found (asking.last found beyond)
        rw [rest_suspended found beyond] at result
        by_cases own : node.spine = id
        · subst own
          obtain ⟨⟨spine, notes, present, follows, heard⟩, others⟩ := tracks
          cases present.symm.trans found
          cases follows with
          | @suspended n s reached =>
            have begun : (store.begin node).Plays mine M node.spine source s := by
              refine ⟨⟨n, reached, heard⟩, ?_⟩
              exact others.modified found spines_begin trivial
            exact begun.extend agree extending result
        · obtain ⟨silent, silent'⟩ := tracks.others _ _ own found
          have begun : (store.begin node).Tracks mine M id source tail :=
            tracks.modified own found spines_begin rfl trivial
          obtain ⟨t, store₁, tracks₁, extending₁, halts⟩ := halts_of_extend
            (J := fun _ store => store.Tracks mine M id source tail) extending begun
            (fun s _ _ tracks _ => tracks.log (silent s))
            (fun s _ node' _ _ _ _ tracks _ before asking answered =>
              ih node'.spine before (tracks.log (silent s)) asking answered rfl) result
          refine Tracks.halts tracks₁ ?_ silent silent' extending₁ halts
          exact own

end Rest

section Share

theorem Tracks.older (tracks : store.Tracks mine M id source tail) : id < store.spines.size := by
  obtain ⟨⟨spine, notes, present, -⟩, -⟩ := tracks
  exact (Array.getElem?_eq_some_iff.mp present).1

theorem Tracks.pushed {spine : Spine ω ν} (tracks : store.Tracks mine M id source tail)
    (silent : spine.frontier.Silent mine) : (store.pushed spine).Tracks mine M id source tail := by
  have older := tracks.older
  obtain ⟨⟨own, notes, present, follows, heard⟩, others⟩ := tracks
  exact ⟨⟨own, notes, (getElem?_pushed older).trans present, follows, heard⟩, others.pushed silent⟩

theorem Tracks.share {source' : Producer ω ν ν} {tail' : Noted ω (Sequence ν)} {fuel : Nat}
    (tracks : store.Tracks mine M id source tail) (agree : M.Agree N id) (ready : store.Ready N)
    (shareable : Producer.Shareable store source' tail')
    (silent : Producer.Silent mine source'.step) (silent' : tail'.Silent mine)
    (result : source'.shareBefore tail' fuel store = some (q, store')) :
    store'.Tracks mine M id source tail := by
  obtain ⟨σ, s, step⟩ := source'
  have older := tracks.older
  have agree' : M.Agree (Producer.meaningWith N store ⟨σ, s, step⟩ tail') id :=
    agree.trans (Producer.agree_extend.weaken older.le) le_rfl
  obtain ⟨t, store₁, tracks₁, extending₁, halts⟩ := halts_of_extend
    (J := fun _ store => store.Tracks mine M id source tail)
    (Producer.extending_pushed ready shareable) (tracks.pushed trivial)
    (fun s _ _ tracks _ => tracks.log (silent s))
    (fun s _ _ _ _ _ _ tracks _ _ asking answered =>
      (tracks.log (silent s)).rest agree' asking answered) result
  refine Tracks.halts tracks₁ ?_ silent silent' extending₁ halts
  exact Nat.ne_of_gt older

theorem tracks_of_share {fuel : Nat} (quiet : store.Quiet mine fun _ => True)
    (unheard : store.heard mine = []) (ready : store.Ready M)
    (shareable : Producer.Shareable store source tail)
    (result : source.shareBefore tail fuel store = some (q, store')) :
    store'.Tracks mine M store.spines.size source tail := by
  have plays : (store.pushed ⟨#[], .running⟩).Plays mine M store.spines.size source source.state := by
    have silent : (⟨#[], .running⟩ : Spine ω ν).frontier.Silent mine := trivial
    exact ⟨⟨0, rfl, unheard⟩, fun id spine _ present => quiet.pushed silent id spine trivial present⟩
  have agree : M.Agree (Producer.meaningWith M store source tail) store.spines.size :=
    Producer.agree_extend
  exact plays.extend agree
    (Producer.extending_pushed ready shareable) result

theorem tracks_pushed {elements : Array ν} (quiet : store.Quiet mine fun _ => True)
    (unheard : store.heard mine = []) :
    (store.pushed ⟨elements, .suspended source tail⟩).Tracks mine M store.spines.size source tail := by
  have follows : Frontier.Follows M source tail [] (.suspended source tail) := .suspended (n := 0) rfl
  refine ⟨⟨_, _, getElem?_pushed_new, follows, unheard⟩, fun id spine differs present => ?_⟩
  rcases pushed_cases present with ⟨-, present⟩ | ⟨same, -⟩
  · exact quiet id spine trivial present
  · exact absurd same differs

end Share

end Store

end DemandLex
