import DemandLex.Proofs.Program.Operators
import DemandLex.Proofs.Sequence.Calls

/-! The calls that the makers of a program make, one for each element of a source and in the order of
the elements, and the steps of a program that make no calls of one's own. -/

namespace DemandLex.Program

open Producer

variable {ω ν : Type} {M : Meaning ν} {s : Sequence ν}

section Calls

def Operator.calls (depth : Nat) (l : Listing ν) : Operator ω ν → List ω
  | map f => l.known.flatMap fun value => (f value).notes
  | filter keep => l.known.flatMap fun value => (keep value).notes
  | dedup equal => foldNotes (fun kept value => Prod.fst <$> keepUnequal equal kept value) none l.known
  | entries _ => []
  | scan start f => foldNotes f start l.known
  | scanFilter start step => foldNotes (fun s value => Prod.fst <$> step s value) start l.known
  | inclusiveScan m => foldNotes m.next m.state l.known
  | exclusiveScan m => foldNotes m.next m.state l.known
  | takeWhile keep => whileNotes keep l.known
  | take _ => []
  | flatScan start step run => (runNotes step (growthNotes run depth) start l).known
  | goOn seed run => (growthNotes run depth seed).known

/-- The notes of the calls in the run that an output starts; a sequence of the program makes its calls
elsewhere. -/
def startNotes {R : Type} (run : R → Noted ω (Option (ν × R))) (depth : Nat) : String ⊕ R → Listing ω
  | .inl _ => .whole []
  | .inr seed => growthNotes run depth seed

def ListShelf.calls (depth : Nat) (shelf : ListShelf ω ν) : Make ω ν → List ω
  | .unfold seed step => (growthNotes step depth seed).known
  | .cons _ _ notes => notes
  | .derive source operator => (shelf.lists.lookup source).elim [] fun l => operator.calls depth l
  | .inclusiveScan source machine => (shelf.lists.lookup source).elim [] fun l =>
    (shelf.machines.lookup machine).elim [] fun m => foldNotes m.next m.state l.known
  | .exclusiveScan source machine => (shelf.lists.lookup source).elim [] fun l =>
    (shelf.machines.lookup machine).elim [] fun m => foldNotes m.next m.state l.known
  | .dropWhile source drop => (shelf.lists.lookup source).elim [] fun l => whileNotes drop l.known
  | .appendWith _ _ notes => notes
  | .flatScan source start step run => (shelf.lists.lookup source).elim [] fun l =>
    (runNotes step (startNotes run depth) start l).known
  | _ => []

section Mono
variable {l l' : Listing ν} {depth depth' : Nat}

private theorem flatMap_more {f : ν → List ω} (le : l ≤ l') : l.known.flatMap f <+: l'.known.flatMap f := by
  obtain ⟨later, same⟩ := le.1
  rw [← same, List.flatMap_append]
  exact List.prefix_append ..

theorem foldNotes_le {τ : Type} {f : τ → ν → Noted ω τ} {carried : τ} (le : l ≤ l') :
    foldNotes f carried l.known <+: foldNotes f carried l'.known := by
  obtain ⟨later, same⟩ := le.1
  rw [← same]
  exact foldNotes_more ..

theorem whileNotes_le {keep : ν → Noted ω Bool} (le : l ≤ l') :
    whileNotes keep l.known <+: whileNotes keep l'.known := by
  obtain ⟨later, same⟩ := le.1
  rw [← same]
  exact whileNotes_more ..

theorem Operator.calls_le (operator : Operator ω ν) (deeper : depth ≤ depth') (le : l ≤ l') :
    operator.calls depth l <+: operator.calls depth' l' := by
  cases operator with
  | map | filter => exact flatMap_more le
  | dedup | scan | scanFilter | inclusiveScan | exclusiveScan => exact foldNotes_le le
  | entries | take => exact List.prefix_refl _
  | takeWhile => exact whileNotes_le le
  | flatScan start step run => exact (runNotes_le (fun _ => growthNotes_mono deeper) le).1
  | goOn => exact (growthNotes_mono deeper).1

end Mono

section Operator

private theorem notesOf_scan {σ : Type} {start : σ} {step : σ → ν → Noted ω (σ × Option ν)}
    {f : σ → ν → Noted ω σ} {n : Nat} (calls : ∀ s value, Prod.fst <$> step s value = f s value) :
    (notesOf M ((Producer.ofSequence s).scanFilter start step).step n (.here s, start)).known <+:
      foldNotes f start (given M (reading (ω := ω)) n (.here s)).known := by
  have same : (fun s value => Prod.fst <$> step s value) = f := funext₂ calls
  have scanned : notesOf M ((Producer.ofSequence s).scanFilter start step).step n (.here s, start) =
      (given M (reading (ω := ω)) n (.here s)).through (foldNotes f start) :=
    same ▸ notesOf_scanFilter fun _ => rfl
  exact scanned.le.1

/-- The notes that the producer of an operator takes are those of the calls on what it has read. -/
theorem notesOf_operator (operator : Operator ω ν) (n : Nat) :
    (notesOf M (operator.apply (.ofSequence s)).step n
        (operator.apply (.ofSequence s)).state).known <+:
      operator.calls n (given M (reading (ω := ω)) n (.here s)) := by
  cases operator with
  | map f =>
    have same := foldNotes_flatMap (fun value => (fun _ => ()) <$> f value) ()
      (given M (reading (ω := ω)) n (.here s)).known
    simp only [Noted.notes_map] at same
    rw [Operator.calls, ← same]
    exact notesOf_scan fun _ value => Noted.ext (by simp) rfl
  | filter keep =>
    have same := foldNotes_flatMap (fun value => (fun _ => ()) <$> keep value) ()
      (given M (reading (ω := ω)) n (.here s)).known
    simp only [Noted.notes_map] at same
    rw [Operator.calls, ← same]
    exact notesOf_scan fun _ value => Noted.ext (by simp) rfl
  | dedup equal => exact notesOf_scan fun _ _ => rfl
  | entries pair =>
    have mute : Producer.Silent (fun _ => true)
        ((Operator.entries pair : Operator ω ν).apply (.ofSequence s)).step :=
      silent_scanFilter (silent_scanFilter silent_reading fun _ _ => Noted.silent_pure)
        fun _ _ => Noted.silent_pure
    exact (notesOf_le_nil fun s => (mute s).notes_eq_nil).1
  | scan start f => exact notesOf_scan fun _ value => Noted.ext (by simp) rfl
  | scanFilter start step => exact notesOf_scan fun _ _ => rfl
  | inclusiveScan m => exact notesOf_scan fun _ value => Noted.ext (by simp) rfl
  | exclusiveScan m => exact notesOf_scan fun _ value => Noted.ext (by simp) rfl
  | takeWhile keep =>
    have tested : notesOf M ((Producer.ofSequence s).takeWhile keep).step n (.here s) = _ :=
      notesOf_takeWhile fun _ => rfl
    exact tested.le.1
  | take count =>
    have mute : Producer.Silent (fun _ => true)
        ((Operator.take count : Operator ω ν).apply (.ofSequence s)).step := silent_take silent_reading
    exact (notesOf_le_nil fun s => (mute s).notes_eq_nil).1
  | flatScan start step run =>
    have played : notesOf M ((Producer.ofSequence s).flatScan start step (play run)).step n
        ((.here s, start), none) ≤ runNotes step (notesOf M (play run) n) start
          (given M (reading (ω := ω)) n (.here s)) := (notesOf_flatScan_le fun _ => rfl).1
    have grown : notesOf M (play run) n = growthNotes run n := funext fun _ => notesOf_play
    rw [grown] at played
    exact played.1
  | goOn seed run =>
    have behind : notesOf M ((Producer.ofSequence s).append (.unfold seed run)).step n
        (.inl (.here s)) ≤ growthNotes run n seed :=
      (notesOf_append_le fun _ => rfl).trans_eq notesOf_play
    exact behind.1

theorem notesOf_startRuns_le {τ σ R : Type} {start : τ} {step : τ → ν → Noted ω (τ × R)}
    {place : R → σ} {run : σ → Noted ω (Move ν σ ν)} {n : Nat} :
    notesOf M (startRuns start step place run s).step n (startRuns start step place run s).state ≤
      runNotes step (fun r => notesOf M run n (place r)) start
        (given M (reading (ω := ω)) n (.here s)) := by
  have played : notesOf M (startRuns start step place run s).step n ((.here s, start), none) ≤
      runNotes _ (notesOf M run n) start (given M (reading (ω := ω)) n (.here s)) :=
    (notesOf_flatScan_le fun _ => rfl).1
  rwa [runNotes_place] at played

end Operator

end Calls

end DemandLex.Program
