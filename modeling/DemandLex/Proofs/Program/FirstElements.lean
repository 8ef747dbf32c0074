import DemandLex.Proofs.Program.Consumption
import DemandLex.Proofs.Sequence.Taking

/-! The bound on taking. However the first elements of a sequence are consumed, nothing is looked at
behind the last one of them. -/

namespace DemandLex

open Effect Producer

variable {ω ν α : Type} {M N : Meaning ν} {s t q : Sequence ν} {n m bound : Nat} {node : Node}
  {allowed : Node → Prop}

section Walks
variable {cells : List (Cell ν)}

theorem Meaning.Walks.inside (walks : M.Walks s cells t) (descends : M.Descends bound)
    (within : ∀ cell, s = some cell → cell.node.spine < bound) :
    ∀ cell, t = some cell → cell.node.spine < bound := by
  induction walks with
  | nil => exact within
  | @cons cell rest t cells follows tail ih =>
    refine ih fun cell' same => ?_
    subst same
    exact (descends.after (within cell rfl) follows).trans_lt (within cell rfl)

theorem Meaning.Walks.agree (walks : M.Walks s cells t) (agree : M.Agree N bound)
    (descends : M.Descends bound) (within : ∀ cell, s = some cell → cell.node.spine < bound) :
    N.Walks s cells t := by
  induction walks with
  | nil => exact .nil
  | @cons cell rest t cells follows tail ih =>
    have older := within cell rfl
    refine .cons ((agree.after older).trans follows) (ih fun cell' same => ?_)
    subst same
    exact (descends.after older follows).trans_lt older

end Walks

def Sequence.Among (M : Meaning ν) (s : Sequence ν) (node : Node) : Prop :=
  ∃ cells cell, M.Walks s cells (some cell) ∧ cell.node = node

def Sequence.Inner (M : Meaning ν) (s : Sequence ν) (n : Nat) (node : Node) : Prop :=
  ∃ cells cell, M.Walks s cells (some cell) ∧ cell.node = node ∧ cells.length + 1 < n

namespace Sequence

/-- A spine of first elements of a sequence. What is left to do is to read on behind the last one. -/
inductive Taken (M : Meaning ν) (s : Sequence ν) (n : Nat) : Spine ω ν → Prop
  | going {elements : Array ν} {left : Nat} {cells : List (Cell ν)} {cell : Cell ν}
      (walks : M.Walks s cells (some cell)) (place : elements.size = cells.length + 1)
      (rest : elements.size + left = n) :
      Taken M s n ⟨elements, .suspended ⟨((ofSequence s).take n).State, (left, .after cell.node),
        ((ofSequence s).take n).step⟩ (pure none)⟩
  | past {elements : Array ν} : Taken M s n ⟨elements, .closed none⟩

theorem Taken.comes {elements : Array ν} {left : Nat} {cells : List (Cell ν)} {cell : Cell ν}
    {effects : List (Effect ω)} {r : Option (ν × ((ofSequence (ω := ω) s).take n).State)}
    (walks : M.Walks s cells (some cell)) (place : elements.size = cells.length + 1)
    (rest : elements.size + left = n)
    (comes : Comes M ((ofSequence s).take n).step (left, .after cell.node) effects r) :
    Taken M s n (Store.resting elements ((ofSequence s).take n).step (pure none) r) ∧
      ∀ node, .look node ∈ effects → node = cell.node ∧ elements.size < n := by
  cases left with
  | zero =>
    obtain ⟨rfl, rfl⟩ := comes_take_zero.mp comes
    exact ⟨.past, by simp⟩
  | succ left =>
    obtain ⟨found, reads, rfl⟩ := comes_take_succ.mp comes
    obtain ⟨q, follows, rfl, rfl⟩ := comes_reading_after.mp reads
    refine ⟨?_, fun node inside => ?_⟩
    · cases q with
      | none => exact .past
      | some next =>
        refine .going (walks.concat follows) ?_ ?_
        · rw [Array.size_push, place, List.length_append, List.length_singleton]
        · rw [Array.size_push]
          omega
    · simp only [List.mem_singleton, Effect.look.injEq] at inside
      exact ⟨inside, by omega⟩

/-- First elements of a sequence stand in a newer spine, and of what was there before, nothing has been
looked at behind other than allowed nodes. -/
structure Beneath (M : Meaning ν) (s : Sequence ν) (n : Nat) (allowed : Node → Prop)
    (base store : Store ω ν) : Prop where
  leaves : ∃ N, base.Leaves M store N
  taken : ∃ spine, store.spines[base.spines.size]? = some spine ∧ Taken M s n spine
  explored : Store.Explored allowed base store

section Beneath
variable {base store store' last : Store ω ν} {fuel : Nat} {effects : List (Effect ω)}

theorem Beneath.log (beneath : Beneath M s n allowed base store) (notes : List ω) :
    Beneath M s n allowed base (store.log notes) := by
  obtain ⟨⟨N, leaves⟩, taken, explored⟩ := beneath
  exact ⟨⟨N, leaves.trans (Lazy.leaves_log notes leaves.ready)⟩, taken, explored.log notes⟩

theorem Beneath.look_older (beneath : Beneath M s n allowed base store)
    (there : node.index < store.size node.spine) (older : node.spine < base.spines.size)
    (allows : allowed node) (settles : Store.Settles (fun fuel => Store.rest fuel node store)
      (q, store')) : Beneath M s n allowed base store' := by
  obtain ⟨⟨N, leaves⟩, ⟨spine, present, taken⟩, explored⟩ := beneath
  have asking : Store.Asking N store node :=
    leaves.ready.asking_of_lt (older.trans_le leaves.spines) there
  have found := Store.found_of_settles asking settles
  obtain ⟨later, -⟩ := found.leaves leaves.ready (older.trans_le leaves.spines)
  refine ⟨⟨N, leaves.trans later⟩, ⟨spine, ?_, taken⟩, explored.look asking older allows settles⟩
  exact (found.grows.same _ (Nat.succ_le_of_lt older)).trans present

/-- A look behind one of the first elements, where no more than the first `m` are wanted. -/
theorem Beneath.look_front (beneath : Beneath M s n allowed base store)
    (among : ∀ node, s.Inner M (min m n) node → allowed node)
    (there : node.index < store.size node.spine) (here : node.spine = base.spines.size)
    (wanted : node.index + 1 < m) (settles : Store.Settles (fun fuel => Store.rest fuel node store)
      (q, store')) : Beneath M s n allowed base store' := by
  obtain ⟨⟨N, leaves⟩, ⟨⟨elements, frontier⟩, present, taken⟩, explored⟩ := beneath
  rw [← here] at present
  have inside : node.spine < store.spines.size := (Array.getElem?_eq_some_iff.mp present).1
  have asking : Store.Asking N store node := leaves.ready.asking_of_lt inside there
  have found := Store.found_of_settles asking settles
  obtain ⟨later, -⟩ := found.leaves leaves.ready inside
  have stays (same : store' = store) : Beneath M s n allowed base store' :=
    ⟨⟨N, leaves.trans later⟩, ⟨⟨elements, frontier⟩, by rw [same, ← here, present], taken⟩,
      same ▸ explored⟩
  cases stored : elements[node.index + 1]? with
  | some value =>
    cases settles.unique (Store.Stored.element present stored).settles
    exact stays rfl
  | none =>
    cases taken with
    | past =>
      cases settles.unique (Store.Stored.closed present stored).settles
      exact stays rfl
    | @going _ left cells cell walks place rest =>
      have front := asking.last present stored
      obtain ⟨extending, -⟩ := asking.extending present front
      obtain ⟨r, reached, -⟩ := extending.continues.here.mp found.stands
      obtain ⟨effects, comes⟩ := reached.comes
      have agree : M.Agree N node.spine := here ▸ leaves.agree
      have comes' : Comes M ((ofSequence s).take n).step (left, .after cell.node) effects r :=
        comes.agree extending.grounded agree.symm (asking.fits.descends.weaken inside.le)
      obtain ⟨taken', bound⟩ := Taken.comes walks place rest comes'
      obtain ⟨before, other, undergoes, same, may⟩ := explored
      obtain ⟨store₁, other₁, looks₁, undergoes₁, same₁, rests⟩ :=
        Store.rest_comes agree asking present front comes' (here ▸ same)
      cases settles.unique looks₁
      rw [Store.closing_none, List.append_nil] at undergoes₁
      refine ⟨⟨N, leaves.trans later⟩, ⟨_, here ▸ rests, taken'⟩, before ++ effects, other₁,
        undergoes.append undergoes₁, here ▸ same₁, fun node' inside' => ?_⟩
      rcases List.mem_append.mp inside' with earlier | looked
      · exact may node' earlier
      · obtain ⟨rfl, short⟩ := bound node' looked
        exact among _ ⟨cells, cell, walks, rfl, by omega⟩

theorem Beneath.undergoes (beneath : Beneath M s n allowed base store)
    (among : ∀ node, s.Inner M (min m n) node → allowed node)
    (undergoes : store.Undergoes effects last)
    (may : ∀ node, .look node ∈ effects → node.spine = base.spines.size ∧ node.index + 1 < m ∨
      node.spine < base.spines.size ∧ allowed node) : Beneath M s n allowed base last := by
  induction undergoes with
  | nil => exact beneath
  | note later ih =>
    exact ih (beneath.log _) fun node inside => may node (List.mem_cons_of_mem _ inside)
  | look there found later ih =>
    refine ih ?_ fun node inside => may node (List.mem_cons_of_mem _ inside)
    rcases may _ List.mem_cons_self with ⟨here, wanted⟩ | ⟨older, allows⟩
    · exact beneath.look_front among there here wanted found
    · exact beneath.look_older there older allows found

theorem beneath_share (ready : store.Ready M) (has : store.Has s)
    (result : ((ofSequence s).take n).share fuel store = some (q, last)) :
    Beneath M s n allowed store last := by
  have grounded : Grounded store.spines.size ((ofSequence s).take n (ω := ω)).step store.size
      (n, .here s) := grounded_take (grounded_reading has)
  obtain ⟨effects, r, N, comes, leaves, grown⟩ := grown_of_share ready grounded result
  obtain ⟨other, undergoes, same⟩ := grown.undergoes
  have begins : effects = [] ∧ Taken M s n (Store.resting #[] ((ofSequence s).take n).step (pure none) r) := by
    cases n with
    | zero =>
      obtain ⟨rfl, rfl⟩ := comes_take_zero.mp comes
      exact ⟨rfl, .past⟩
    | succ n =>
      obtain ⟨found, reads, rfl⟩ := comes_take_succ.mp comes
      obtain ⟨rfl, rfl⟩ := comes_reading_here.mp reads
      cases s with
      | none => exact ⟨rfl, .past⟩
      | some cell => exact ⟨rfl, .going .nil rfl (Nat.add_comm 1 n)⟩
  obtain ⟨rfl, taken⟩ := begins
  exact ⟨⟨N, leaves⟩, ⟨_, grown.present, taken⟩, [], other, undergoes, same, by simp⟩

end Beneath

end Sequence

theorem Producer.Continues.place {step : α → Noted ω (Move ν α ν)} {state : α} {id index : Nat}
    {cells : List (Cell ν)} {cell : Cell ν} (continues : Continues N id index step state none)
    (stands : N ⟨id, index⟩ = some q) (walks : N.Walks q cells (some cell)) :
    cell.node = ⟨id, index + cells.length⟩ := by
  generalize same : some cell = t at walks
  induction walks generalizing index state with
  | nil =>
    subst same
    obtain ⟨r, -, stood⟩ := continues.here.mp stands
    cases r with
    | none => cases stood
    | some found =>
      cases stood
      rfl
  | @cons first rest t cells follows tail ih =>
    obtain ⟨r, reached, stood⟩ := continues.here.mp stands
    cases r with
    | none => cases stood
    | some found =>
      cases stood
      rw [ih (continues.behind reached) follows same, List.length_cons]
      congr 1
      omega

namespace Program

variable {store store₁ last : Store ω ν} {handles handles' : List (Sequence ν)} {fuel : Nat}

/-- The first elements of a sequence are consumed with looks behind those only that another one of
them follows, and with looks behind what else is at hand. -/
theorem explored_of_consumes (ready : store.Ready M) (has : store.Has s)
    (others : ∀ t ∈ handles, store.Has t) (consumes : Consumes s n handles store handles' last) :
    Store.Explored (fun node => s.Inner M n node ∨ ∃ t ∈ handles, t.Among M node) store last := by
  have descends := ready.fits.descends
  have older {t : Sequence ν} {cells : List (Cell ν)} {cell : Cell ν} (has : store.Has t)
      (walks : M.Walks t cells (some cell)) : cell.node.spine < store.spines.size :=
    walks.inside descends (fun cell same => (has cell same).1) cell rfl
  have contained : Contained M M (fun node => s.Inner M n node ∨ ∃ t ∈ handles, t.Among M node)
      store store s handles :=
    ⟨.refl ready, Store.guarded_refl store, has, fun t inside => ⟨others t inside,
      Or.inr fun cells cell walks =>
        ⟨older (others t inside) walks, Or.inr ⟨t, inside, cells, cell, walks, rfl⟩⟩⟩⟩
  obtain ⟨N, contained'⟩ := consumes.contained contained fun cells cell walks short =>
    ⟨older has walks, Or.inl ⟨cells, cell, walks, rfl, short⟩⟩
  exact contained'.guarded.explored

theorem explored_of_consumes_take (ready : store.Ready M) (has : store.Has s)
    (others : ∀ t ∈ handles, store.Has t)
    (result : ((ofSequence s).take n).share fuel store = some (q, store₁))
    (consumes : Consumes q m handles store₁ handles' last) :
    Store.Explored (fun node => s.Inner M (min m n) node ∨ ∃ t ∈ handles, t.Among M node) store
      last := by
  have grounded : Grounded store.spines.size ((ofSequence s).take n (ω := ω)).step store.size
      (n, .here s) := grounded_take (grounded_reading has)
  have shareable := shareable_of_grounded grounded
  have shared := shared_of_eq_some ready shareable result
  have extending := extending_pushed ready shareable
  have stands := (Store.found_of_extend extending result).stands
  have agree : M.Agree (meaningWith M store ((ofSequence s).take n) (pure none))
      store.spines.size := agree_extend
  have descends := ready.fits.descends
  have explored := explored_of_consumes shared.leaves.ready shared.has
    (fun t inside => shared.leaves.has (others t inside)) consumes
  obtain ⟨effects, other, undergoes, same, may⟩ := explored
  have beneath : Sequence.Beneath M s n
      (fun node => s.Inner M (min m n) node ∨ ∃ t ∈ handles, t.Among M node) store other := by
    refine (Sequence.beneath_share ready has result).undergoes (fun _ => Or.inl) undergoes
      fun node looked => ?_
    rcases may node looked with ⟨cells, cell, walks, rfl, short⟩ | ⟨t, inside, cells, cell, walks, rfl⟩
    · have place := extending.continues.place stands walks
      rw [Nat.zero_add] at place
      exact Or.inl ⟨by rw [place], by rw [place]; exact short⟩
    · have within (cell : Cell ν) (same : t = some cell) : cell.node.spine < store.spines.size :=
        (others t inside cell same).1
      have walks' := walks.agree agree.symm (agree.descends descends) within
      exact Or.inr ⟨walks'.inside descends within cell rfl,
        Or.inr ⟨t, inside, cells, cell, walks', rfl⟩⟩
  exact beneath.explored.same (same.weaken shared.leaves.spines)

/-- Taking the first `n` elements of a sequence. Looks behind the ones before it show an element; all of
them come back to a consumer, whatever there is behind the `n`-th. The first `m` of the first `n` are
the first ones, no more than both. Whoever takes first elements, any number of times, and consumes them
together with others, makes no look behind the `n`-th, nor behind the `m`-th where no more than `m` of
them are taken on. All consumers consume so. -/
theorem takes_no_further (ready : store.Ready M) (has : store.Has s) :
    (∀ n, ((ofSequence s).take n).share.Shows store (s.Takes M n)) ∧
    (∀ n passed cells, s.Firsts M n passed cells →
      ((ofSequence s).take n).share.Returns store M fun q store₁ N =>
        q.Lists (cells.map Cell.value) store₁ N ∧ ∀ (start : α) f,
          (q.foldM start f).Returns store₁ N fun value _ _ => value =
            (cells.map Cell.value).foldl (fun value item => (f value item).value) start) ∧
    (∀ n m, (do
      let q ← ((ofSequence s).take n).share
      ((ofSequence q).take m).share).Shows store (s.Takes M (min m n))) ∧
    (∀ n handles handles' last, (∀ t ∈ handles, store.Has t) →
      Consumes s n handles store handles' last →
      Store.Explored (fun node => s.Inner M n node ∨ ∃ t ∈ handles, t.Among M node) store last) ∧
    (∀ n m fuel q store₁ handles handles' last, (∀ t ∈ handles, store.Has t) →
      ((ofSequence s).take n).share fuel store = some (q, store₁) →
      Consumes q m handles store₁ handles' last →
      Store.Explored (fun node => s.Inner M (min m n) node ∨ ∃ t ∈ handles, t.Among M node) store
        last) ∧
    ∀ (n fuel : Nat) (handles : List (Sequence ν)) (store₁ last : Store ω ν),
      ∀ t ∈ handles,
        (∀ (start value : α) f, t.foldM start f fuel store₁ = some (value, last) →
          Holding s n handles store₁ [] last) ∧
        (∀ (count : Option Nat) (start value : α) visit,
          t.iterateWhile count start visit fuel store₁ = some (value, last) →
            Holding s n handles store₁ [] last) ∧
        (∀ drop q, t.dropWhile drop fuel store₁ = some (q, last) →
          Holding s n handles store₁ [q] last) ∧
        ∀ u ∈ handles, ∀ same answer, t.equal same u fuel store₁ = some (answer, last) →
          Holding s n handles store₁ [] last := by
  refine ⟨fun n => Sequence.shows_take ready has n, fun n passed cells firsts => ?_,
    fun n m => Sequence.shows_take_take ready has n m,
    fun n handles handles' last others consumes => explored_of_consumes ready has others consumes,
    fun n m fuel q store₁ handles handles' last others result consumes =>
      explored_of_consumes_take ready has others result consumes,
    fun n fuel handles store₁ last t among => ⟨?_, ?_, ?_, ?_⟩⟩
  · obtain ⟨q, store₁, N, settles, leaves, lists⟩ := Sequence.returns_take ready has firsts
    exact ⟨q, store₁, N, settles, leaves, lists, fun _ _ =>
      Sequence.returns_foldM leaves.ready lists⟩
  · exact fun start value f result => holding_foldM among result
  · exact fun count start value visit result => holding_iterateWhile among result
  · exact fun drop q result => holding_dropWhile among result
  · exact fun u among' same answer result => holding_equal among among' result

/-- Of 10, 20 and 30, the first two are shown with one look behind the 10, and no more is looked at
however often they are taken and consumed. -/
theorem takes_no_further_two :
    ∃ (s : Sequence Nat) (store : Store Nat Nat) (M : Meaning Nat) (first second third : Cell Nat),
      Store.Settles (fun fuel => (ofList [10, 20, 30]).share fuel .empty) (s, store) ∧
      store.Ready M ∧ M.Walks s [first, second, third] none ∧
      (∃ front store' other,
        Store.Settles (fun fuel => ((ofSequence s).take 2).share.expose 1 fuel store)
          (front, store') ∧
        front.first? = some 20 ∧
        store.Undergoes [.look first.node] other ∧ store'.SameBelow store.spines.size other) ∧
      (∃ front store' other,
        Store.Settles (fun fuel => (do
          let q ← ((ofSequence s).take 5).share
          ((ofSequence q).take 2).share : Lazy Nat Nat (Sequence Nat)).expose 2 fuel store)
          (front, store') ∧
        front.first? = none ∧
        store.Undergoes [.look first.node] other ∧ store'.SameBelow store.spines.size other) ∧
      ∀ handles last, Consumes s 2 [] store handles last →
        Store.Explored (fun node => node = first.node) store last := by
  obtain ⟨s, store, M, cells, settles, ready, has, walks, values⟩ :=
    Store.exists_shared (ω := Nat) [10, 20, 30]
  obtain ⟨⟨_, first⟩, ⟨_, second⟩, ⟨_, third⟩, rfl⟩ := List.length_eq_three.mp
    (by rw [← List.length_map (f := Cell.value), values]; rfl)
  cases values
  obtain ⟨shows, -, nested, bound, -, -⟩ := takes_no_further (α := Nat) ready has
  have two : M.Walks s [⟨10, first⟩] (some ⟨20, second⟩) := walks.until
  refine ⟨s, store, M, ⟨10, first⟩, ⟨20, second⟩, ⟨30, third⟩, settles, ready, walks, ?_, ?_, ?_⟩
  · exact (shows 2 1).2 _ _ (.within two rfl (by decide))
  · exact (nested 5 2 2).2 _ _ (.past (.full two rfl) le_rfl)
  · intro handles last consumes
    refine (bound 2 [] handles last (by simp) consumes).mono fun node inner => ?_
    rcases inner with ⟨cells, cell, walks', rfl, short⟩ | ⟨t, ⟨⟩, -⟩
    obtain rfl : cells = [] := List.eq_nil_of_length_eq_zero (by omega)
    cases walks'
    cases walks
    rfl

end Program

end DemandLex
