import DemandLex.Proofs.Sequence.Frame
import DemandLex.Proofs.Sequence.Silence

/-! What taking elements of a shared producer reads. A producer that takes no notes leaves the older
spines just as the looks leave them that it makes on the way to these elements: no look is made
before the element is asked for that needs it. -/

namespace DemandLex

variable {ω ν σ α : Type} {M N : Meaning ν}

/-- The cells of so many elements, and the sequence behind these. -/
inductive Meaning.Walks (M : Meaning ν) : Sequence ν → List (Cell ν) → Sequence ν → Prop
  | nil {s : Sequence ν} : Walks M s [] s
  | cons {cell : Cell ν} {rest t : Sequence ν} {cells : List (Cell ν)}
      (follows : M.after cell.node = some rest) (tail : Walks M rest cells t) :
      Walks M (some cell) (cell :: cells) t

theorem Meaning.Begins.of_append {s : Sequence ν} {values later : List ν}
    (begins : M.Begins s (values ++ later)) : M.Begins s values := by
  induction values generalizing s with
  | nil => exact .nil
  | cons v values ih =>
    rw [List.cons_append] at begins
    generalize same : values ++ later = rest at begins
    cases begins with
    | one =>
      obtain ⟨rfl, -⟩ := List.append_eq_nil_iff.mp same
      exact .one
    | cons follows tail => exact .cons follows (ih (same ▸ tail))

theorem Meaning.Begins.walks {s : Sequence ν} {values later : List ν} {value : ν}
    (begins : M.Begins s (values ++ value :: later)) :
    ∃ cells cell, M.Walks s cells (some cell) ∧ cells.map Cell.value = values ∧
      cell.value = value := by
  induction values generalizing s with
  | nil =>
    cases begins with
    | one | cons => exact ⟨[], _, .nil, rfl, rfl⟩
  | cons v values ih =>
    rw [List.cons_append] at begins
    generalize same : values ++ value :: later = rest at begins
    cases begins with
    | one => simp at same
    | cons follows tail =>
      obtain ⟨cells, cell, walks, before, last⟩ := ih (same ▸ tail)
      exact ⟨_ :: cells, cell, .cons follows walks, congrArg _ before, last⟩

theorem Meaning.Holds.walks {s : Sequence ν} {values : List ν} (holds : M.Holds s values) :
    ∃ cells, M.Walks s cells none ∧ cells.map Cell.value = values := by
  induction holds with
  | nil => exact ⟨[], .nil, rfl⟩
  | cons follows tail ih =>
    obtain ⟨cells, walks, same⟩ := ih
    exact ⟨_ :: cells, .cons follows walks, congrArg _ same⟩

theorem Meaning.Walks.holds {s : Sequence ν} {cells : List (Cell ν)} (walks : M.Walks s cells none) :
    M.Holds s (cells.map Cell.value) := by
  generalize stop : none = t at walks
  induction walks with
  | nil =>
    subst stop
    exact .nil
  | cons follows tail ih => exact .cons follows (ih stop)

theorem Meaning.Walks.begins {s t : Sequence ν} {cells : List (Cell ν)} (walks : M.Walks s cells t) :
    M.Begins s (cells.map Cell.value) := by
  induction walks with
  | nil => exact .nil
  | cons follows tail ih => exact .cons follows ih

theorem Meaning.Walks.concat {s q : Sequence ν} {cells : List (Cell ν)} {cell : Cell ν}
    (walks : M.Walks s cells (some cell)) (follows : M.after cell.node = some q) :
    M.Walks s (cells ++ [cell]) q := by
  generalize same : some cell = t at walks
  induction walks with
  | nil =>
    subst same
    exact .cons follows .nil
  | cons follows' tail ih => exact .cons follows' (ih same)

theorem Meaning.Walks.of_append {s t : Sequence ν} {xs ys : List (Cell ν)}
    (walks : M.Walks s (xs ++ ys) t) : ∃ u, M.Walks s xs u ∧ M.Walks u ys t := by
  induction xs generalizing s with
  | nil => exact ⟨s, .nil, walks⟩
  | cons cell xs ih =>
    cases walks with
    | cons follows tail =>
      obtain ⟨u, front, back⟩ := ih tail
      exact ⟨u, .cons follows front, back⟩

theorem Meaning.Walks.until {s t : Sequence ν} {cells later : List (Cell ν)} {cell : Cell ν}
    (walks : M.Walks s (cells ++ cell :: later) t) : M.Walks s cells (some cell) := by
  obtain ⟨u, front, back⟩ := walks.of_append
  cases back
  exact front

theorem Meaning.walks_of_stored {id index : Nat} {q : Sequence ν} {values : List ν} {value : ν}
    (stored : ∀ (i : Nat) (v : ν), (values ++ [value])[i]? = some v →
      M ⟨id, index + i⟩ = some (some ⟨v, id, index + i⟩))
    (stands : M ⟨id, index⟩ = some q) :
    ∃ cells, M.Walks q cells (some ⟨value, id, index + values.length⟩) ∧
      cells.map Cell.value = values := by
  induction values generalizing index q with
  | nil =>
    cases stands.symm.trans (stored 0 value rfl)
    exact ⟨[], .nil, rfl⟩
  | cons v values ih =>
    cases stands.symm.trans (stored 0 v rfl)
    obtain ⟨w, there⟩ : ∃ w, (values ++ [value])[0]? = some w := by simp
    have behind : M ⟨id, index + 1⟩ = some (some ⟨w, id, index + 1⟩) := stored 1 w there
    have later (i : Nat) (w : ν) (there : (values ++ [value])[i]? = some w) :
        M ⟨id, index + 1 + i⟩ = some (some ⟨w, id, index + 1 + i⟩) := by
      rw [Nat.add_assoc, Nat.add_comm 1 i]
      exact stored (i + 1) w there
    obtain ⟨cells, walks, same⟩ := ih later behind
    have place : index + 1 + values.length = index + (v :: values).length := by
      rw [List.length_cons]
      omega
    rw [place] at walks
    exact ⟨_ :: cells, .cons behind walks, congrArg _ same⟩

namespace Producer

/-- A producer comes to its next element, and asks for what is behind these nodes on the way. -/
inductive Brings (M : Meaning ν) (step : σ → Noted ω (Move ν σ α)) :
    σ → List Node → α → σ → Prop
  | yield {s next : σ} {value : α} (move : (step s).value = .yield value next) :
      Brings M step s [] value next
  | skip {s s' next : σ} {value : α} {asked : List Node} (move : (step s).value = .skip s')
      (later : Brings M step s' asked value next) : Brings M step s asked value next
  | force {s next : σ} {value : α} {asked : List Node} {node : Node} {resume : Sequence ν → σ}
      {q : Sequence ν} (move : (step s).value = .force node resume)
      (follows : M.after node = some q) (later : Brings M step (resume q) asked value next) :
      Brings M step s (node :: asked) value next

inductive Draws (M : Meaning ν) (step : σ → Noted ω (Move ν σ α)) :
    σ → List Node → List α → σ → Prop
  | nil {s : σ} : Draws M step s [] [] s
  | cons {s next last : σ} {value : α} {values : List α} {asked asked' : List Node}
      (first : Brings M step s asked value next) (later : Draws M step next asked' values last) :
      Draws M step s (asked ++ asked') (value :: values) last

inductive Moves (M : Meaning ν) (step : σ → Noted ω (Move ν σ α)) :
    σ → List Node → List α → σ → Prop
  | nil {s : σ} : Moves M step s [] [] s
  | yield {s next last : σ} {value : α} {values : List α} {asked : List Node}
      (move : (step s).value = .yield value next) (later : Moves M step next asked values last) :
      Moves M step s asked (value :: values) last
  | skip {s next last : σ} {values : List α} {asked : List Node} (move : (step s).value = .skip next)
      (later : Moves M step next asked values last) : Moves M step s asked values last
  | force {s last : σ} {values : List α} {asked : List Node} {node : Node}
      {resume : Sequence ν → σ} {q : Sequence ν} (move : (step s).value = .force node resume)
      (follows : M.after node = some q) (later : Moves M step (resume q) asked values last) :
      Moves M step s (node :: asked) values last

section Draws
variable {step : σ → Noted ω (Move ν σ α)} {s s' last : σ} {asked : List Node} {values : List α}

theorem draws_yield {value : α} (move : (step s).value = .yield value s')
    (later : Draws M step s' asked values last) : Draws M step s asked (value :: values) last :=
  .cons (.yield move) later

theorem draws_skip (move : (step s).value = .skip s') (some_value : values ≠ [])
    (later : Draws M step s' asked values last) : Draws M step s asked values last := by
  cases later with
  | nil => contradiction
  | cons first later => exact .cons (.skip move first) later

theorem draws_force {node : Node} {resume : Sequence ν → σ} {q : Sequence ν}
    (move : (step s).value = .force node resume) (follows : M.after node = some q)
    (some_value : values ≠ []) (later : Draws M step (resume q) asked values last) :
    Draws M step s (node :: asked) values last := by
  cases later with
  | nil => contradiction
  | cons first later => exact .cons (.force move follows first) later

theorem draws_of_moves {next : σ} {value : α} (moves : Moves M step s asked values last)
    (move : (step last).value = .yield value next) :
    Draws M step s asked (values ++ [value]) next := by
  induction moves with
  | nil => exact draws_yield move .nil
  | yield move' later ih => exact draws_yield move' (ih move)
  | skip move' later ih => exact draws_skip move' (by simp) (ih move)
  | force move' follows later ih => exact draws_force move' follows (by simp) (ih move)

end Draws

theorem Moves.append {step : σ → Noted ω (Move ν σ α)} {s middle last : σ}
    {asked asked' : List Node} {values values' : List α} (front : Moves M step s asked values middle)
    (back : Moves M step middle asked' values' last) :
    Moves M step s (asked ++ asked') (values ++ values') last := by
  induction front with
  | nil => exact back
  | yield move later ih => exact .yield move (ih back)
  | skip move later ih => exact .skip move (ih back)
  | force move follows later ih => exact .force move follows (ih back)

theorem Moves.gives {step : σ → Noted ω (Move ν σ α)} {s last : σ} {asked : List Node}
    {values : List α} (moves : Moves M step s asked values last)
    (ended : (step last).value = .done) : Gives M step s values := by
  induction moves with
  | nil => exact gives_nil.mpr (.done ended)
  | yield move later ih => exact gives_cons.mpr ⟨_, .yield move, ih ended⟩
  | skip move later ih => exact (ih ended).congr fun _ => .skip move
  | force move follows later ih => exact (ih ended).congr fun _ => .force move follows

end Producer

namespace Sequence

def advance : Nat → Sequence ν → Lazy ω ν (Sequence ν)
  | 0, s => pure s
  | n + 1, s => do
    let later ← rest s
    advance n later

end Sequence

namespace Store

variable {store store' other other' : Store ω ν} {asked asked' : List Node}

inductive Looks : Store ω ν → List Node → Store ω ν → Prop
  | nil {store : Store ω ν} : Looks store [] store
  | cons {store store' last : Store ω ν} {node : Node} {nodes : List Node} {q : Sequence ν}
      (first : Settles (fun fuel => rest fuel node store) (q, store'))
      (later : Looks store' nodes last) : Looks store (node :: nodes) last

theorem Looks.append {last : Store ω ν} (first : store.Looks asked store')
    (second : store'.Looks asked' last) : store.Looks (asked ++ asked') last := by
  induction first with
  | nil => exact second
  | cons found later ih => exact .cons found (ih second)

theorem exists_shared (items : List ν) :
    ∃ (s : Sequence ν) (store : Store ω ν) (M : Meaning ν) (cells : List (Cell ν)),
      Settles (fun fuel => (Producer.ofList items).share fuel .empty) (s, store) ∧
      store.Ready M ∧ store.Has s ∧ M.Walks s cells none ∧ cells.map Cell.value = items := by
  obtain ⟨s, store, M, settles, leaves, lists⟩ := Sequence.returns_lists (ω := ω) ready_empty
    (Producer.grounded_of_alone Producer.alone_unfold) (Producer.gives_ofList items)
  obtain ⟨cells, walks, values⟩ := lists.holds.walks
  exact ⟨s, store, M, cells, settles, leaves.ready, lists.has, walks, values⟩

theorem Looks.advance {s t : Sequence ν} {cells : List (Cell ν)}
    (looks : store.Looks (cells.map Cell.node) store') (ready : store.Ready M) (has : store.Has s)
    (walks : M.Walks s cells t) :
    Settles (fun fuel => Sequence.advance cells.length s fuel store) (t, store') := by
  induction walks generalizing store with
  | nil =>
    cases looks
    exact ⟨0, fun _ _ => rfl⟩
  | @cons cell rest t cells follows tail ih =>
    cases looks with
    | @cons _ middle _ _ _ q first later =>
      have found := found_of_settles (ready.asking has) first
      cases found.stands.symm.trans follows
      obtain ⟨leaves, has'⟩ := found.leaves ready (has cell rfl).1
      exact Lazy.settles_bind first (ih later leaves.ready has')

theorem Settles.unique {β : Type*} {x : Nat → Option β} {result result' : β}
    (first : Settles x result) (second : Settles x result') : result = result' := by
  obtain ⟨enough, settles⟩ := first
  obtain ⟨enough', settles'⟩ := second
  exact Option.some_inj.mp ((settles _ (Nat.le_max_left enough enough')).symm.trans
    (settles' _ (Nat.le_max_right enough enough')))

theorem log_nil : store.log [] = store := rfl

section Extend
variable {step : σ → Noted ω (Move ν σ ν)} {s next : σ} {value : ν} {place : Node}
  {tail : Noted ω (Sequence ν)}

/-- An extension of a spine leaves the older ones as the looks of its producer alone do. -/
theorem extend_brings (mute : ∀ s, (step s).notes = []) (agree : M.Agree N place.spine)
    (extending : Extending N store place ⟨σ, s, step⟩ tail)
    (brings : Producer.Brings M step s asked value next)
    (same : store.SameBelow place.spine other) :
    ∃ store' other', Settles (fun fuel => extend fuel place.spine ⟨σ, s, step⟩ tail store)
        (some ⟨value, place⟩, store') ∧
      other.Looks asked other' ∧ store'.SameBelow place.spine other' ∧
      ∀ elements, store.spines[place.spine]? = some ⟨elements, .running⟩ →
        store'.spines[place.spine]? =
          some ⟨elements.push value, .suspended ⟨σ, next, step⟩ tail⟩ := by
  induction brings generalizing store other with
  | @yield s next value move =>
    have settles := settles_yield extending move
    simp only [mute, log_nil] at settles
    refine ⟨_, other, settles, .nil, ?_, ?_⟩
    · exact same.modified_newer _ le_rfl spines_push rfl
    · intro elements present
      exact getElem?_push present
  | @skip s s' next value asked move later ih =>
    obtain ⟨store', other', settles, looks, same', pushed⟩ := ih (extending.skip move) same
    refine ⟨store', other', settles_skip move ?_, looks, same', pushed⟩
    rw [mute, log_nil]
    exact settles
  | @force s next value asked node resume q move follows later ih =>
    obtain ⟨older, asking⟩ := extending.asking move
    have follows' : N.after node = some q := (agree.after older).trans follows
    obtain ⟨middle, answers⟩ := rest_settles asking follows'
    obtain ⟨middle', answers', same₁⟩ := same.rest_settles asking older answers
    have answer := found_of_settles asking answers
    obtain ⟨store', other', settles, looks, same', pushed⟩ :=
      ih (extending.resume move answer) same₁
    refine ⟨store', other', settles_force move ?_ settles, .cons answers' looks, same',
      fun elements present => ?_⟩
    · rw [mute, log_nil]
      exact answers
    · exact pushed elements ((answer.grows.same _ older).trans present)

end Extend

section Drawn
variable {step : σ → Noted ω (Move ν σ ν)} {s next last : σ} {value : ν} {values values' : List ν}
  {id : Nat} {front : Sequence ν}

/-- A spine with its first elements, the last of which is at the front, where the older spines are as
looks behind some nodes alone leave them. -/
structure Drawn (store other : Store ω ν) (asked : List Node) (id : Nat)
    (step : σ → Noted ω (Move ν σ ν)) (s : σ) (values : List ν) (front : Sequence ν) : Prop where
  present : store.spines[id]? = some ⟨values.toArray, .suspended ⟨σ, s, step⟩ (pure none)⟩
  front : front = values.getLast?.map fun value => ⟨value, id, values.length - 1⟩
  looks : ∃ other', other.Looks asked other' ∧ store.SameBelow id other'

theorem drawn_concat (present : store.spines[id]? =
      some ⟨values.toArray.push value, .suspended ⟨σ, s, step⟩ (pure none)⟩)
    (looks : other.Looks asked other') (same : store.SameBelow id other') :
    store.Drawn other asked id step s (values ++ [value]) (some ⟨value, id, values.length⟩) :=
  ⟨by rw [present, List.push_toArray], by simp, other', looks, same⟩

theorem Drawn.rest (drawn : store.Drawn other asked id step s values front)
    (some_value : values ≠ []) (mute : ∀ s, (step s).notes = []) (agree : M.Agree N id)
    (ready : store.Ready N) (brings : Producer.Brings M step s asked' value next) :
    ∃ front' store', Settles (fun fuel => Sequence.rest front fuel store) (front', store') ∧
      store.Leaves N store' N ∧
      store'.Drawn other (asked ++ asked') id step next (values ++ [value]) front' := by
  obtain ⟨present, rfl, middle, looks, same⟩ := drawn
  have last := List.getLast?_eq_some_getLast some_value
  have filled : values.length - 1 + 1 = values.length :=
    Nat.sub_add_cancel (List.length_pos_iff.mpr some_value)
  rw [last]
  let node : Node := ⟨id, values.length - 1⟩
  have has : store.Has (some ⟨values.getLast some_value, node⟩) := by
    rintro cell ⟨⟩
    refine ⟨(Array.getElem?_eq_some_iff.mp present).1, ?_⟩
    rw [size_eq present]
    simp [node]
    omega
  have asking : Asking N store node := ready.asking has
  obtain ⟨extending, -⟩ := asking.extending present (by simp [node, filled])
  have begun : (store.begin node).SameBelow id middle :=
    same.modified_newer _ le_rfl spines_begin rfl
  have running : (store.begin node).spines[id]? = some ⟨values.toArray, .running⟩ :=
    getElem?_begin present
  obtain ⟨store', other', extended, looks', same', pushed⟩ :=
    extend_brings mute agree extending brings begun
  have beyond : values.toArray[node.index + 1]? = none := by simp [node, filled]
  have settles := settles_run present beyond extended
  have found := found_of_settles asking settles
  refine ⟨_, store', settles, (found.leaves ready (has _ rfl).1).1, ?_⟩
  rw [show node.index + 1 = values.length from filled]
  exact drawn_concat (pushed _ running) (looks.append looks') same'

theorem Drawn.advance (drawn : store.Drawn other asked id step s values front)
    (some_value : values ≠ []) (mute : ∀ s, (step s).notes = []) (agree : M.Agree N id)
    (ready : store.Ready N) (draws : Producer.Draws M step s asked' values' last) :
    ∃ front' store',
      Settles (fun fuel => Sequence.advance values'.length front fuel store) (front', store') ∧
      store.Leaves N store' N ∧
      store'.Drawn other (asked ++ asked') id step last (values ++ values') front' := by
  induction draws generalizing store asked values front with
  | nil =>
    rw [List.append_nil, List.append_nil]
    exact ⟨front, store, ⟨0, fun _ _ => rfl⟩, .refl ready, drawn⟩
  | cons first later ih =>
    obtain ⟨front₁, store₁, rests, leaves, drawn₁⟩ := drawn.rest some_value mute agree ready first
    obtain ⟨front', store', advances, leaves', drawn'⟩ := ih drawn₁ (by simp) leaves.ready
    rw [List.append_assoc, List.append_assoc] at drawn'
    exact ⟨front', store', Lazy.settles_bind rests advances, leaves.trans leaves', drawn'⟩

theorem share_draws (mute : ∀ s, (step s).notes = []) (ready : store.Ready M)
    (grounded : Producer.Grounded store.spines.size step store.size s)
    (brings : Producer.Brings M step s asked value next) :
    ∃ front store' N,
      Settles (fun fuel => Producer.share ⟨σ, s, step⟩ fuel store) (front, store') ∧
      store.Leaves M store' N ∧ store'.Has front ∧
      store'.Drawn store asked store.spines.size step next [value] front := by
  have shareable : Producer.Shareable store ⟨σ, s, step⟩ (pure none) :=
    Producer.shareable_of_grounded grounded
  have extending := Producer.extending_pushed ready shareable
  have agree : M.Agree (Producer.meaningWith M store ⟨σ, s, step⟩ (pure none)) store.spines.size :=
    Producer.agree_extend
  have begun : (store.pushed ⟨#[], .running⟩).SameBelow store.spines.size store := .pushed le_rfl
  obtain ⟨store', other', ⟨enough, settles⟩, looks, same, pushed⟩ :=
    extend_brings mute agree extending brings begun
  have shared := Producer.shared_of_eq_some ready shareable (settles enough le_rfl)
  have drawn : store'.Drawn store asked store.spines.size step next ([] ++ [value]) _ :=
    drawn_concat (pushed #[] getElem?_pushed_new) looks same
  exact ⟨_, store', _, ⟨enough, settles⟩, shared.leaves, shared.has, drawn⟩

theorem Drawn.walks {q : Sequence ν}
    (drawn : store.Drawn other asked id step s (values ++ [value]) front) (fits : store.Fits N)
    (stands : N ⟨id, 0⟩ = some q) :
    ∃ cells, N.Walks q cells front ∧ cells.map Cell.value = values := by
  obtain ⟨present, rfl, -⟩ := drawn
  have stored (index : Nat) (v : ν) (there : (values ++ [value])[index]? = some v) :
      N ⟨id, index⟩ = some (some ⟨v, id, index⟩) :=
    fits.stored id _ present index v (by simpa using there)
  have walks : ∃ cells, N.Walks q cells (some ⟨value, id, 0 + values.length⟩) ∧
      cells.map Cell.value = values := Meaning.walks_of_stored (by simpa using stored) stands
  simpa using walks

theorem share_advance (mute : ∀ s, (step s).notes = []) (ready : store.Ready M)
    (grounded : Producer.Grounded store.spines.size step store.size s)
    (draws : Producer.Draws M step s asked values last) (some_value : values ≠ []) :
    ∃ first store₁ N front store',
      Settles (fun fuel => Producer.share ⟨σ, s, step⟩ fuel store) (first, store₁) ∧
      store.Leaves M store₁ N ∧ store₁.Has first ∧ N ⟨store.spines.size, 0⟩ = some first ∧
      Settles (fun fuel => Sequence.advance (values.length - 1) first fuel store₁)
        (front, store') ∧
      store₁.Leaves N store' N ∧
      store'.Drawn store asked store.spines.size step last values front := by
  cases draws with
  | nil => contradiction
  | @cons _ _ _ value later _ _ brings draws =>
    obtain ⟨first, store₁, N, shares, leaves, has, drawn⟩ := share_draws mute ready grounded brings
    have stands : N ⟨store.spines.size, 0⟩ = some first := by
      rw [drawn.front]
      exact leaves.ready.fits.stored _ _ drawn.present 0 value rfl
    obtain ⟨front, store', advances, leaves', drawn'⟩ :=
      drawn.advance (by simp) mute leaves.agree leaves.ready draws
    exact ⟨first, store₁, N, front, store', shares, leaves, has, stands, advances, leaves', drawn'⟩

/-- Drawing from a spine leaves the older ones as advancing the sequence that it reads does. -/
theorem Drawn.reads {q t : Sequence ν} {cells : List (Cell ν)}
    (drawn : store.Drawn other (cells.map Cell.node) id step s values front)
    (ready : other.Ready M) (has : other.Has q) (walks : M.Walks q cells t) :
    ∃ other', Settles (fun fuel => Sequence.advance cells.length q fuel other) (t, other') ∧
      store.SameBelow id other' := by
  obtain ⟨other', looks, same⟩ := drawn.looks
  exact ⟨other', looks.advance ready has walks, same⟩

theorem Drawn.first?_front (drawn : store.Drawn other asked id step s values front) :
    front.first? = values.getLast? := by
  rw [drawn.front]
  cases values.getLast? <;> rfl

theorem Drawn.first {q : Sequence ν} (drawn : store.Drawn other asked id step s values front)
    (some_value : values ≠ []) (fits : store.Fits N) (stands : N ⟨id, 0⟩ = some q) :
    q = some ⟨values.head some_value, id, 0⟩ := by
  have stored := fits.stored id _ drawn.present 0 (values.head some_value)
    (by rw [List.getElem?_toArray, ← List.head?_eq_getElem?, List.head?_eq_some_head some_value])
  exact Option.some_inj.mp (stands.symm.trans stored)

/-- The elements of a sequence that have been forced, as far as they stand in one spine. -/
def forced (store : Store ω ν) : Sequence ν → List ν
  | none => []
  | some cell =>
    store.spines[cell.node.spine]?.elim [] fun spine => spine.elements.toList.drop cell.node.index

theorem forced_first {frontier : Frontier ω ν} {q : Sequence ν} {some_value : values ≠ []}
    (first : q = some ⟨values.head some_value, id, 0⟩)
    (present : store.spines[id]? = some ⟨values.toArray, frontier⟩) : store.forced q = values := by
  rw [first, forced, present]
  rfl

end Drawn

/-- Elements of a shared producer that reads another one, which reads a sequence: of the sequence
between, just the elements have been forced that they ask for, and the older spines are as advancing
the source to the last of these leaves them. -/
theorem share_share_reads {P : Producer ω ν ν} {Q : Sequence ν → Producer ω ν ν} {last : P.State}
    {source t : Sequence ν} {cells : List (Cell ν)} {values values' : List ν} {value : ν}
    (mute : ∀ s, (P.step s).notes = []) (mute' : ∀ q s, ((Q q).step s).notes = [])
    (grounded : Producer.Grounded store.spines.size P.step store.size P.state)
    (grounded' : ∀ {bound sizes q}, q.Within bound sizes →
      Producer.Grounded bound (Q q).step sizes (Q q).state)
    (ready : store.Ready M) (has : store.Has source) (walks : M.Walks source cells t)
    (draws : Producer.Draws M P.step P.state (cells.map Cell.node) (values ++ [value]) last)
    (draws' : ∀ {N : Meaning ν} {q : Sequence ν} {cells' : List (Cell ν)} {node : Node},
      N.Walks q cells' (some ⟨value, node⟩) → cells'.map Cell.value = values →
      ∃ last', Producer.Draws N (Q q).step (Q q).state (cells'.map Cell.node) values' last')
    (some_value : values' ≠ []) :
    ∃ first front store' other,
      Settles (fun fuel => (do
        let first ← P.share
        let second ← (Q first).share
        let front ← Sequence.advance (values'.length - 1) second
        pure (first, front) : Lazy ω ν (Sequence ν × Sequence ν)) fuel store)
        ((first, front), store') ∧
      front.first? = values'.getLast? ∧ store'.forced first = values ++ [value] ∧
      Settles (fun fuel => Sequence.advance cells.length source fuel store) (t, other) ∧
      store'.SameBelow store.spines.size other := by
  obtain ⟨first, store₁, N, middle, store₁', shares, leaves, has₁, stands, advances, leaves₁,
    drawn⟩ := share_advance mute ready grounded draws (by simp)
  obtain ⟨other, advances₀, same⟩ := drawn.reads ready has walks
  obtain ⟨cells', walks', before⟩ := drawn.walks leaves₁.ready.fits stands
  rw [drawn.front, List.getLast?_append_of_ne_nil _ (by simp)] at walks'
  obtain ⟨last', draws'⟩ := draws' walks' before
  obtain ⟨second, store₂, N', front, store', shares', -, -, -, advances', -, drawn'⟩ :=
    share_advance (mute' first) leaves.ready (grounded' has₁) draws' some_value
  obtain ⟨other₁, advances₁, same'⟩ := drawn'.reads leaves.ready has₁ walks'
  -- What the second spine leaves of the first is what advancing the first by itself leaves.
  have count : cells'.length = (values ++ [value]).length - 1 := by
    rw [List.length_append, ← before, List.length_map]
    rfl
  rw [count] at advances₁
  cases advances₁.unique advances
  have head := drawn.first (by simp) leaves₁.ready.fits stands
  have older : store.spines.size < store₁.spines.size := (has₁ _ head).1
  refine ⟨first, front, store', other, ?_, drawn'.first?_front, ?_, advances₀,
    (same'.weaken (Nat.le_of_lt older)).trans same⟩
  · exact Lazy.settles_bind shares (Lazy.settles_bind shares'
      (Lazy.settles_bind advances' ⟨0, fun _ _ => rfl⟩))
  · exact forced_first head ((same'.spines _ older).trans drawn.present)

end Store

end DemandLex
