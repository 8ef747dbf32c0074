import DemandLex.Sequence.Producer

/-! The store of lazy sequences. A spine holds the elements that one producer has given so far, in
order, and what is left of the producer. Asking for the rest of the last element runs the producer
up to its next element; asking again finds that element in the store. -/

namespace DemandLex

inductive Frontier (ω ν : Type) : Type 1 where
  /-- The producer of the further elements, and the sequence that follows when it is done. -/
  | suspended (source : Producer ω ν ν) (tail : Noted ω (Sequence ν))
  | running
  | closed (tail : Sequence ν)

structure Spine (ω ν : Type) : Type 1 where
  elements : Array ν
  frontier : Frontier ω ν

/-- The spines, the notes taken by all computations so far, and the nodes whose rest was computed,
in the order of the computations. -/
structure Store (ω ν : Type) : Type 1 where
  spines : Array (Spine ω ν)
  notes : Array ω
  runs : Array Node

namespace Store
variable {ω ν : Type}

def empty : Store ω ν := ⟨#[], #[], #[]⟩

def log (store : Store ω ν) (notes : List ω) : Store ω ν :=
  { store with notes := notes.foldl Array.push store.notes }

def setFrontier (store : Store ω ν) (id : Nat) (frontier : Frontier ω ν) : Store ω ν :=
  { store with spines := store.spines.modify id fun s => { s with frontier := frontier } }

def begin (store : Store ω ν) (node : Node) : Store ω ν :=
  let store := store.setFrontier node.spine .running
  { store with runs := store.runs.push node }

def push (store : Store ω ν) (id : Nat) (value : ν) (frontier : Frontier ω ν) : Store ω ν :=
  { store with
    spines := store.spines.modify id fun s => ⟨s.elements.push value, frontier⟩ }

def size (store : Store ω ν) (id : Nat) : Nat :=
  match store.spines[id]? with
  | some spine => spine.elements.size
  | none => 0

mutual

/-- The sequence after a node, computed on first demand. Nothing comes back when the fuel runs
out. -/
def rest : Nat → Node → Store ω ν → Option (Sequence ν × Store ω ν)
  | 0, _, _ => none
  | fuel + 1, node, store =>
    match store.spines[node.spine]? with
    | none => some (none, store)
    | some spine =>
      match spine.elements[node.index + 1]? with
      | some value => some (some ⟨value, node.spine, node.index + 1⟩, store)
      | none =>
        match spine.frontier with
        | .closed tail => some (tail, store)
        | .running => some (none, store)
        | .suspended source tail => extend fuel node.spine source tail (store.begin node)

/-- Runs the producer of a spine up to its next element. -/
def extend : Nat → Nat → Producer ω ν ν → Noted ω (Sequence ν) → Store ω ν →
    Option (Sequence ν × Store ω ν)
  | 0, _, _, _, _ => none
  | fuel + 1, id, source, tail, store =>
    let turn := source.step source.state
    let store := store.log turn.notes
    match turn.value with
    | .yield value next =>
      let index := store.size id
      some (some ⟨value, id, index⟩,
        store.push id value (.suspended { source with state := next } tail))
    | .skip next => extend fuel id { source with state := next } tail store
    | .force node resume =>
      match rest fuel node store with
      | none => none
      | some (s, store) => extend fuel id { source with state := resume s } tail store
    | .done => some (tail.value, (store.log tail.notes).setFrontier id (.closed tail.value))

end

end Store

end DemandLex
