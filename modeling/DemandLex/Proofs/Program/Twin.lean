import DemandLex.Proofs.Program.Operators

/-! The sequences of a program beside the lists that they stand for. What makes a sequence makes its
list, and what is asked of a sequence is answered as of its list, as soon as enough of it is known. -/

namespace DemandLex.Program

open Filter

universe u v w

variable {ω ν : Type}

section Alike
variable {α : Type u} {β : Type v} {σ : Type w} {P : α → (Nat → β) → Prop} {names : Names σ}
  {name : String}

def Alike (P : α → (Nat → β) → Prop) (x : Except Failure α) (y : Nat → Except Failure β) : Prop :=
  (∃ failure, x = .error failure ∧ ∀ depth, y depth = .error failure) ∨
    ∃ a c, x = .ok a ∧ (∀ depth, y depth = .ok (c depth)) ∧ P a c

theorem alike_ok {a : α} {c : Nat → β} (related : P a c) :
    Alike P (.ok a) fun depth => .ok (c depth) :=
  Or.inr ⟨a, c, rfl, fun _ => rfl, related⟩

theorem alike_find {next : σ → Except Failure α} {next' : Nat → σ → Except Failure β}
    (found : ∀ thing, (name, thing) ∈ names → Alike P (next thing) fun depth => next' depth thing) :
    Alike P (names.find name next) fun depth => names.find name (next' depth) := by
  cases known : names.lookup name with
  | none =>
    refine Or.inl ⟨.unknownName name, ?_, fun depth => ?_⟩
    · simp only [Names.find, known]
    · simp only [Names.find, known]
  | some thing =>
    simp only [Names.find, known]
    exact found thing (Names.mem_of_lookup known)

theorem alike_findAll {wanted : List String} {next : List σ → Except Failure α}
    {next' : Nat → List σ → Except Failure β}
    (found : ∀ things, (∀ thing ∈ things, ∃ name, (name, thing) ∈ names) →
      Alike P (next things) fun depth => next' depth things) :
    Alike P (names.findAll wanted next) fun depth => names.findAll wanted (next' depth) := by
  induction wanted generalizing next next' with
  | nil => exact found [] fun thing none => by cases none
  | cons name later ih =>
    apply alike_find
    intro first there
    apply ih
    intro others among
    apply found
    intro thing inside
    rcases List.mem_cons.mp inside with rfl | inside
    · exact ⟨name, there⟩
    · exact among thing inside

end Alike

/-- A shelf of sequences, each beside what becomes known of the list that it stands for. -/
structure Twin (ω ν : Type) : Type 1 where
  pairs : Names (Sequence ν × (Nat → Listing ν))
  machines : Names (Machine ω ν ν)

namespace Twin

def shelf (t : Twin ω ν) : Shelf ω ν := ⟨t.pairs.mapThings Prod.fst, t.machines⟩

def lists (t : Twin ω ν) (depth : Nat) : ListShelf ω ν :=
  ⟨t.pairs.mapThings fun pair => pair.2 depth, t.machines⟩

/-- Every sequence is one of the store and stands for its list. -/
def Fits (t : Twin ω ν) (store : Store ω ν) (M : Meaning ν) : Prop :=
  ∀ name s c, (name, (s, c)) ∈ t.pairs → s.Known c store M

variable {t : Twin ω ν} {store store' : Store ω ν} {M M' : Meaning ν}

theorem fits_empty : (⟨[], []⟩ : Twin ω ν).Fits .empty fun _ => none :=
  fun _ _ _ there => by cases there

theorem Fits.later (fits : t.Fits store M) (ready : store.Ready M)
    (leaves : store.Leaves M store' M') : t.Fits store' M' :=
  fun name s c there => (fits name s c there).later ready leaves

theorem Fits.insert {name : String} {s : Sequence ν} {c : Nat → Listing ν} (fits : t.Fits store M)
    (known : s.Known c store M) :
    ({ t with pairs := t.pairs.insert name (s, c) } : Twin ω ν).Fits store M := by
  intro name' s' c' there
  rcases List.mem_cons.mp there with same | older
  · cases same
    exact known
  · exact fits name' s' c' older

theorem Fits.erase {name : String} (fits : t.Fits store M) :
    ({ t with pairs := t.pairs.erase name } : Twin ω ν).Fits store M :=
  fun name' s c there => fits name' s c (List.mem_of_mem_filter there)

section Sources
variable {α : Type u} {β : Type v} {P : α → (Nat → β) → Prop} {name : String}

theorem alike_source {next : Sequence ν → Except Failure α}
    {next' : Nat → Listing ν → Except Failure β} (fits : t.Fits store M)
    (found : ∀ s c, s.Known c store M → Alike P (next s) fun depth => next' depth (c depth)) :
    Alike P (t.shelf.sequences.find name next)
      fun depth => (t.lists depth).lists.find name (next' depth) := by
  simp only [shelf, lists, Names.find_mapThings]
  exact alike_find fun pair there => found pair.1 pair.2 (fits name pair.1 pair.2 there)

theorem alike_sources {wanted : List String} {next : List (Sequence ν) → Except Failure α}
    {next' : Nat → List (Listing ν) → Except Failure β} (fits : t.Fits store M)
    (found : ∀ pairs : List (Sequence ν × (Nat → Listing ν)),
      (∀ pair ∈ pairs, pair.1.Known pair.2 store M) →
        Alike P (next (pairs.map Prod.fst))
          fun depth => next' depth (pairs.map fun pair => pair.2 depth)) :
    Alike P (t.shelf.sequences.findAll wanted next)
      fun depth => (t.lists depth).lists.findAll wanted (next' depth) := by
  simp only [shelf, lists, Names.findAll_mapThings]
  refine alike_findAll fun pairs among => found pairs ?_
  intro pair inside
  obtain ⟨name, there⟩ := among pair inside
  exact fits name pair.1 pair.2 there

end Sources

section Make

theorem Fits.known_lookup (fits : t.Fits store M) (name : String) :
    Sequence.Known (t.shelf.sequences.lookup name).join
      (fun depth => ((t.lists depth).lists.lookup name).getD (.whole [])) store M := by
  simp only [shelf, lists, Names.lookup_mapThings]
  cases found : t.pairs.lookup name with
  | none => exact Sequence.known_empty
  | some pair => exact fits name pair.1 pair.2 (Names.mem_of_lookup found)

theorem Fits.sameLimit_begin {R : Type} {run : R → Noted ω (Option (ν × R))}
    (fits : t.Fits store M) (output : String ⊕ R) :
    Producer.Grounded store.spines.size (Producer.playEither run) store.size
        (t.shelf.begin output) ∧
      Listing.SameLimit (fun n => Producer.given M (Producer.playEither run) n (t.shelf.begin output))
        fun depth => (t.lists depth).begin depth run output := by
  cases output with
  | inl name =>
    have known := fits.known_lookup name
    constructor
    · apply Producer.grounded_playEither
      rintro r ⟨⟩
      exact Producer.grounded_reading known.has
    · simp only [Shelf.begin, Producer.given_playEither_reading]
      exact Producer.sameLimit_reading.trans known.denotes
  | inr seed =>
    constructor
    · apply Producer.grounded_playEither
      rintro r ⟨⟩
    · simp only [Shelf.begin, Producer.given_playEither_seed]
      exact .refl unfold_mono

theorem alike_make (how : Make ω ν) (ready : store.Ready M) (fits : t.Fits store M) :
    Alike (fun x c => x.Makes store M c) (t.shelf.make how)
      fun depth => (t.lists depth).make depth how := by
  cases how with
  | empty => exact alike_ok (Sequence.makes_pure ready Sequence.known_empty)
  | once value => exact alike_ok (Sequence.makes_prepend ready Sequence.known_empty)
  | constant value => exact alike_ok (makes_constant ready)
  | items values => exact alike_ok (makes_ofList ready)
  | unfold seed step => exact alike_ok (makes_unfold ready)
  | prepend value source =>
    exact alike_source fits fun s c known => alike_ok (Sequence.makes_prepend ready known)
  | cons value source notes =>
    exact alike_source fits fun s c known => alike_ok (Sequence.makes_cons ready known)
  | copy source =>
    exact alike_source fits fun s c known => alike_ok (Sequence.makes_pure ready known)
  | rest source =>
    exact alike_source fits fun s c known => alike_ok (Sequence.makes_rest ready known)
  | derive source operator =>
    exact alike_source fits fun s c known => alike_ok (makes_operator operator ready known)
  | inclusiveScan source machine =>
    exact alike_source fits fun s c known => alike_find fun m _ =>
      alike_ok (makes_operator (.inclusiveScan m) ready known)
  | exclusiveScan source machine =>
    exact alike_source fits fun s c known => alike_find fun m _ =>
      alike_ok (makes_operator (.exclusiveScan m) ready known)
  | dropWhile source drop =>
    exact alike_source fits fun s c known => alike_ok (Sequence.makes_dropWhile ready known)
  | appendWith source other notes =>
    exact alike_source fits fun s c known => alike_source fits fun s' c' known' =>
      alike_ok (Sequence.makes_appendWith ready known known')
  | flatten parts =>
    exact alike_sources fits fun pairs known => alike_ok (makes_concatenation ready known)
  | flatScan source start step run =>
    exact alike_source fits fun s c known => alike_ok (Sequence.makes_share ready
      (grounded_startRuns start step t.shelf.begin (Producer.playEither run) known.has
        fun output => (fits.sameLimit_begin output).1)
      (sameLimit_startRuns start step t.shelf.begin (Producer.playEither run) known.denotes
        fun output => (fits.sameLimit_begin output).2))
  | reverse source =>
    exact alike_source fits fun s c known => alike_ok (Sequence.makes_reverse ready known)

end Make

end Twin

section Ask
variable {β γ : Type} {store : Store ω ν} {M : Meaning ν} {s : Sequence ν} {c : Nat → Listing ν}

structure Replies (x : Lazy ω ν β) (store : Store ω ν) (M : Meaning ν) (known : Nat → Option β) :
    Prop where
  came (fuel : Nat) (b : β) (store' : Store ω ν) : x fuel store = some (b, store') →
    (∃ M', store.Leaves M store' M') ∧ ∀ᶠ depth in atTop, known depth = some b
  comes (depth : Nat) (b : β) : known depth = some b →
    ∃ store', Store.Settles (fun fuel => x fuel store) (b, store')

theorem replies_of_answers {x : Lazy ω ν β} {answer : Listing ν → Option β}
    (answers : x.Answers s answer store M) (known : s.Known c store M)
    (more : ∀ {l l' : Listing ν} {b : β}, l ≤ l' → answer l = some b → answer l' = some b) :
    Replies x store M fun depth => answer (c depth) where
  came fuel b store' result := by
    obtain ⟨leaves, n, shown⟩ := answers.came fuel b store' result
    exact ⟨leaves, (known.denotes.le n).mono fun _ le => more le shown⟩
  comes depth b found := by
    obtain ⟨n, le⟩ := (known.denotes.ge depth).exists
    exact answers.comes n b (more le found)

theorem Replies.map {x : Lazy ω ν β} {known : Nat → Option β} (replies : Replies x store M known)
    (f : β → γ) : Replies (f <$> x) store M fun depth => (known depth).map f where
  came fuel result store' came := by
    rw [map_eq_pure_bind] at came
    obtain ⟨b, store₁, came, same⟩ := Lazy.bind_eq_some.mp came
    cases same
    obtain ⟨leaves, eventually⟩ := replies.came fuel b store' came
    exact ⟨leaves, eventually.mono fun depth found => by rw [found]; rfl⟩
  comes depth result found := by
    obtain ⟨b, answered, rfl⟩ := Option.map_eq_some_iff.mp found
    obtain ⟨store', enough, settles⟩ := replies.comes depth b answered
    refine ⟨store', enough, fun fuel later => ?_⟩
    rw [map_eq_pure_bind]
    exact Lazy.bind_eq_some.mpr ⟨b, store', settles fuel later, rfl⟩

theorem Twin.alike_ask {t : Twin ω ν} (query : Query ω ν) (ready : store.Ready M)
    (fits : t.Fits store M) (plain : (Step.ask query).compares = false) :
    Alike (fun x known => Replies x store M known) (t.shelf.ask query)
      fun depth => (t.lists depth).ask query := by
  cases query with
  | isEmpty source =>
    refine alike_source fits fun s c known => alike_ok ?_
    have first := replies_of_answers (Sequence.answers_first ready) known Listing.first?_of_le
    have same : s.isEmpty = s.first?.isNone := Option.isNone_map.symm
    rw [same]
    exact first.map fun first => Answer.yes first.isNone
  | size source =>
    exact alike_source fits fun s c known => alike_ok
      ((replies_of_answers (Sequence.answers_size ready known.has) known Listing.all?_of_le).map _)
  | list source =>
    exact alike_source fits fun s c known => alike_ok
      ((replies_of_answers (Sequence.answers_toList ready known.has) known Listing.all?_of_le).map _)
  | text source render =>
    exact alike_source fits fun s c known => alike_ok
      ((replies_of_answers (Sequence.answers_toList ready known.has) known Listing.all?_of_le).map _)
  | first source =>
    exact alike_source fits fun s c known => alike_ok
      ((replies_of_answers (Sequence.answers_first ready) known Listing.first?_of_le).map _)
  | last source =>
    exact alike_source fits fun s c known => alike_ok
      ((replies_of_answers (Sequence.answers_last ready known.has) known Listing.all?_of_le).map _)
  | iterTake source count =>
    exact alike_source fits fun s c known => alike_ok
      ((replies_of_answers (Sequence.answers_iterTake ready known.has) known
        Listing.take?_of_le).map _)
  | splitFirst source =>
    refine alike_source fits fun s c known => alike_ok ?_
    have parts := replies_of_answers (Sequence.answers_uncons ready known.has) known
      Listing.uncons?_of_le
    have replies := parts.map fun parts =>
      Answer.split (parts.map fun part => (part.1, part.2.isNone))
    rw [← comp_map] at replies
    have same : (fun parts : Option (ν × Sequence ν) =>
        Answer.split (parts.map fun part => (part.1, part.2.isEmpty))) = fun parts =>
          Answer.split ((parts.map fun part => (part.1, part.2.first?)).map
            fun part => (part.1, part.2.isNone)) := by
      funext parts
      simp [Function.comp_def, Sequence.isEmpty, Sequence.first?]
    exact same ▸ replies
  | uncons source =>
    refine alike_source fits fun s c known => alike_ok ?_
    have parts := replies_of_answers (Sequence.answers_uncons ready known.has) known
      Listing.uncons?_of_le
    have replies := parts.map Answer.uncons
    rw [← comp_map] at replies
    exact replies
  -- a comparison may end sooner on shared sequences than on lists
  | equal source other same => cases plain
  | fold source start f =>
    exact alike_source fits fun s c known => alike_ok
      ((replies_of_answers (Sequence.answers_foldM f start ready known.has) known
        Listing.all?_of_le).map _)
  | exclusiveFold source machine =>
    refine alike_source fits fun s c known => alike_find fun m _ => alike_ok ?_
    have reduced := replies_of_answers (Sequence.answers_foldM m.next m.state ready known.has) known
      Listing.all?_of_le
    have replies := reduced.map fun s => Answer.value (m.output s)
    have same : Answer.value <$> s.exclusiveFold m =
        (fun s => Answer.value (m.output s)) <$> s.foldM m.state m.next := by
      rw [Sequence.exclusiveFold, ← map_eq_pure_bind, ← comp_map]
      rfl
    rw [same]
    exact replies

end Ask

end DemandLex.Program
