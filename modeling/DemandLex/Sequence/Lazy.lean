import DemandLex.Sequence.Store

/-! Computations on a store of lazy sequences: what makes a sequence and what consumes one. -/

namespace DemandLex

/-- A computation that may force sequences. It takes the fuel that bounds each of its loops and the
store, and gives nothing when the fuel does not suffice. -/
def Lazy (ω ν α : Type) : Type 1 := Nat → Store ω ν → Option (α × Store ω ν)

namespace Lazy
variable {ω ν α β : Type}

instance : Monad (Lazy ω ν) where
  pure value := fun _ store => some (value, store)
  bind first next := fun fuel store =>
    match first fuel store with
    | none => none
    | some (value, store) => next value fuel store

instance : LawfulMonad (Lazy ω ν) := LawfulMonad.mk' _
  (fun x => by
    funext fuel store
    show (match x fuel store with
      | none => none
      | some (value, store) => some (value, store)) = _
    cases x fuel store <;> rfl)
  (fun _ _ => rfl)
  (fun x f g => by
    funext fuel store
    simp only [bind]
    cases x fuel store <;> rfl)

/-- Repeats a step until it gives a result. -/
def iterate (step : β → Lazy ω ν (β ⊕ α)) (start : β) : Lazy ω ν α := fun fuel =>
  go fuel fuel start
where
  go (bound : Nat) : Nat → β → Store ω ν → Option (α × Store ω ν)
    | 0, _, _ => none
    | left + 1, state, store =>
      match step state bound store with
      | none => none
      | some (.inl next, store) => go bound left next store
      | some (.inr result, store) => some (result, store)

def noted (step : Noted ω α) : Lazy ω ν α := fun _ store =>
  some (step.value, store.log step.notes)

def noteCount : Lazy ω ν Nat := fun _ store => some (store.notes.size, store)

end Lazy

namespace Producer
variable {ω ν : Type}

/-- The sequence of a producer, followed by another sequence. Its head is computed at once. -/
def shareBefore (source : Producer ω ν ν) (tail : Noted ω (Sequence ν)) : Lazy ω ν (Sequence ν) :=
  fun fuel store =>
    Store.extend fuel store.spines.size source tail
      { store with spines := store.spines.push ⟨#[], .running⟩ }

def share (source : Producer ω ν ν) : Lazy ω ν (Sequence ν) := source.shareBefore (pure none)

end Producer

namespace Sequence
variable {ω ν α : Type}

def single (value : ν) (frontier : Frontier ω ν) : Lazy ω ν (Sequence ν) := fun _ store =>
  some (some ⟨value, store.spines.size, 0⟩,
    { store with spines := store.spines.push ⟨#[value], frontier⟩ })

def prepend (s : Sequence ν) (value : ν) : Lazy ω ν (Sequence ν) := single value (.closed s)

def once (value : ν) : Lazy ω ν (Sequence ν) := prepend none value

/-- An element before a sequence that is handed over on first demand. -/
def cons (value : ν) (tail : Noted ω (Sequence ν)) : Lazy ω ν (Sequence ν) :=
  single value (.suspended .empty tail)

/-- One sequence and then another, which is handed over when the first is exhausted; from there on
the result is the second sequence itself. -/
def appendWith (s : Sequence ν) (tail : Noted ω (Sequence ν)) : Lazy ω ν (Sequence ν) :=
  (Producer.ofSequence s).shareBefore tail

def append (s t : Sequence ν) : Lazy ω ν (Sequence ν) := s.appendWith (pure t)

/-- The sequence after the head; nothing follows the empty sequence. -/
def rest : Sequence ν → Lazy ω ν (Sequence ν)
  | none => pure none
  | some cell => fun fuel store => Store.rest fuel cell.node store

def splitFirst (s : Sequence ν) : Lazy ω ν (Option (ν × Sequence ν)) :=
  match s with
  | none => pure none
  | some cell => do
    let tail ← rest s
    pure (some (cell.value, tail))

/-- Feeds the elements to a step in order; each is taken before the rest behind it is asked for. -/
def foldM (s : Sequence ν) (start : α) (f : α → ν → Noted ω α) : Lazy ω ν α :=
  Lazy.iterate (fun (reduced, s) =>
    match s with
    | none => pure (.inr reduced)
    | some cell => do
      let next ← Lazy.noted (f reduced cell.value)
      let tail ← rest s
      pure (.inl (next, tail))) (start, s)

def exclusiveFold (s : Sequence ν) (m : Machine ω ν α) : Lazy ω ν α := do
  let last ← s.foldM m.state m.next
  pure (m.output last)

def toArray (s : Sequence ν) : Lazy ω ν (Array ν) :=
  s.foldM #[] fun items value => pure (items.push value)

def toList (s : Sequence ν) : Lazy ω ν (List ν) := do
  let items ← s.toArray
  pure items.toList

def size (s : Sequence ν) : Lazy ω ν Nat :=
  s.foldM 0 fun count _ => pure (count + 1)

def last? (s : Sequence ν) : Lazy ω ν (Option ν) :=
  s.foldM none fun _ value => pure (some value)

/-- Hands out the elements one at a time, at most `count` of them. The rest behind an element is
asked for before the element is handed out; `visit` says whether to go on. -/
def iterateWhile (s : Sequence ν) (count : Option Nat) (start : α) (visit : α → ν → α × Bool) :
    Lazy ω ν α :=
  Lazy.iterate (fun (state, left, s) =>
    match left, s with
    | some 0, _ => pure (.inr state)
    | _, none => pure (.inr state)
    | _, some cell => do
      let tail ← rest s
      let (next, more) := visit state cell.value
      pure (if more then .inl (next, left.map (· - 1), tail) else .inr next)) (start, count, s)

def iterTake (s : Sequence ν) (count : Nat) : Lazy ω ν (List ν) := do
  let items ← s.iterateWhile (some count) #[] fun items value => (items.push value, true)
  pure items.toList

def dropWhile (s : Sequence ν) (drop : ν → Noted ω Bool) : Lazy ω ν (Sequence ν) :=
  Lazy.iterate (fun s =>
    match s with
    | none => pure (.inr none)
    | some cell => do
      if ← Lazy.noted (drop cell.value) then
        let tail ← rest s
        pure (.inl tail)
      else pure (.inr s)) s

/-- Compares element by element, and stops at the first difference or at a shared node. -/
def equal (same : ν → ν → Bool) (s t : Sequence ν) : Lazy ω ν Bool :=
  Lazy.iterate (fun (s, t) =>
    match s, t with
    | none, none => pure (.inr true)
    | some left, some right =>
      if left.node = right.node then pure (.inr true)
      else if !same left.value right.value then pure (.inr false)
      else do
        let s ← rest (some left)
        let t ← rest (some right)
        pure (.inl (s, t))
    | _, _ => pure (.inr false)) (s, t)

def reverse (s : Sequence ν) : Lazy ω ν (Sequence ν) := do
  let items ← s.toList
  items.foldlM (fun reversed value => prepend reversed value) none

end Sequence

end DemandLex
