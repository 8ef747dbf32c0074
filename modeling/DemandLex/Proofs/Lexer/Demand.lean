import DemandLex.Lexer.Stream
import DemandLex.Proofs.Lexer.Shape
import DemandLex.Proofs.Sequence.Drawing
import Mathlib.Order.Bounds.Basic

/-! How far the tokens read. A token is at the front of the stream as soon as the character that
completes it has been read, and no character behind that one has been asked for. -/

namespace DemandLex

namespace Tagged

/-- The tagged characters of a text of which so much is known; the end is behind them when it is
known. -/
def ofListing (text : Listing Char) : List Tagged :=
  if text.complete then ofChars .start text.known else placed .start text.known

theorem ofListing_begins (text : Listing Char) : placed .start text.known <+: ofListing text := by
  rw [ofListing]
  split
  · rw [ofChars_eq]
    exact List.prefix_append ..
  · exact List.prefix_refl _

theorem take_ofListing {text : Listing Char} {n : Nat} (inside : n < (ofListing text).length) :
    (∃ front c later, text.known = front ++ c :: later ∧ front.length = n ∧
      (ofListing text).take (n + 1) = placed .start (front ++ [c])) ∨
    (text.complete = true ∧ text.known.length = n ∧
      (ofListing text).take (n + 1) = ofChars .start text.known) := by
  by_cases more : n < text.known.length
  · refine Or.inl ⟨text.known.take n, text.known[n], text.known.drop (n + 1), by simp,
      by simp [Nat.le_of_lt more], ?_⟩
    have begins : placed .start (text.known.take (n + 1)) <+: placed .start text.known := by
      conv_rhs => rw [← List.take_append_drop (n + 1) text.known]
      rw [placed_append]
      exact List.prefix_append ..
    have count : (placed .start (text.known.take (n + 1))).length = n + 1 := by
      rw [length_placed, List.length_take]
      omega
    have taken := List.prefix_iff_eq_take.mp (begins.trans (ofListing_begins text))
    rw [count] at taken
    rw [List.take_append_getElem more, taken]
  · rw [ofListing] at inside ⊢
    split at inside
    · next ended =>
      rw [length_ofChars] at inside
      have all : text.known.length = n := by omega
      refine Or.inr ⟨ended, all, ?_⟩
      rw [if_pos ended, List.take_of_length_le (by rw [length_ofChars, all])]
    · rw [length_placed] at inside
      exact absurd inside more

end Tagged

namespace Stage

theorem filterMap_char? (text : List Char) : (text.map char).filterMap char? = text := by
  simp [List.filterMap_map, Function.comp_def, char?]

theorem filterMap_tagged? (inputs : List Tagged) :
    (inputs.map tagged).filterMap tagged? = inputs := by
  simp [List.filterMap_map, Function.comp_def, tagged?]

end Stage

namespace Producer

variable {ω ν : Type} {M : Meaning ν} {asked : List Node} {classes : CharClasses}

section AddPosition
variable {p : Producer ω ν Char} {s last next : p.State} {text : List Char} {position : Position}

def tag (p : Position) (c : Option Char) : Noted ω (Position × Option Tagged) :=
  pure (match c with
    | some c => (p.advance c, some ⟨some c, p⟩)
    | none => (p, some ⟨none, p⟩))

theorem scanned_tag (position : Position) (text : List Char) :
    scanned (tag (ω := ω)) position (text.map some) = Tagged.placed position text := by
  induction text generalizing position with
  | nil => rfl
  | cons c rest ih => exact (scanned_some rfl).trans (congrArg _ (ih (position.advance c)))

theorem carriedBehind_tag (position : Position) (text : List Char) :
    carriedBehind (tag (ω := ω)) position (text.map some) =
      text.foldl Position.advance position := by
  rw [carriedBehind, List.foldl_map]
  rfl

theorem Moves.addPosition (moves : Moves M p.step s asked text last) :
    Moves M p.addPosition.step (.inl (s, ()), position) asked (Tagged.placed position text)
      (.inl (last, ()), text.foldl Position.advance position) := by
  rw [← scanned_tag (ω := ω), ← carriedBehind_tag (ω := ω)]
  exact ((moves.map (f := fun c => pure (some c))).lift Sum.inl fun _ => append_inl).scanFilter

theorem draws_addPosition {c : Char} (position : Position)
    (moves : Moves M p.step s asked text last)
    (move : (p.step last).value = .yield c next) :
    ∃ behind, Draws M p.addPosition.step (.inl (s, ()), position) asked
      (Tagged.placed position (text ++ [c])) behind := by
  have tagged : ((p.addPosition.step (.inl (last, ()), text.foldl Position.advance position)).value =
      .yield ⟨some c, text.foldl Position.advance position⟩
        (.inl (next, ()), (text.foldl Position.advance position).advance c)) := by
    simp [Producer.addPosition, scanFilter, append, Producer.map, Move.lift, move]
  rw [Tagged.placed_append]
  exact ⟨_, draws_of_moves moves.addPosition tagged⟩

/-- At the end of the source one step leads to the end of the input, and the next one gives it. -/
theorem moves_addPosition_end (position : Position) (moves : Moves M p.step s asked text last)
    (move : (p.step last).value = .done) :
    Moves M p.addPosition.step (.inl (s, ()), position) asked (Tagged.placed position text)
      (.inr [none], text.foldl Position.advance position) := by
  have ended : (p.addPosition.step (.inl (last, ()), text.foldl Position.advance position)).value =
      .skip (.inr [none], text.foldl Position.advance position) := by
    simp [Producer.addPosition, scanFilter, append, Producer.map, ofList, unfold, move]
  have moves' := moves.addPosition.append (.skip ended .nil)
  rwa [List.append_nil, List.append_nil] at moves'

theorem draws_addPosition_end (position : Position)
    (moves : Moves M p.step s asked text last)
    (move : (p.step last).value = .done) :
    ∃ behind, Draws M p.addPosition.step (.inl (s, ()), position) asked
      (Tagged.ofChars position text) behind := by
  rw [Tagged.ofChars_eq]
  exact ⟨_, draws_of_moves (moves_addPosition_end position moves move) rfl⟩

theorem gives_addPosition (position : Position) (moves : Moves M p.step s asked text last)
    (move : (p.step last).value = .done) :
    Gives M p.addPosition.step (.inl (s, ()), position) (Tagged.ofChars position text) := by
  rw [Tagged.ofChars_eq]
  exact ((moves_addPosition_end position moves move).append (.yield rfl .nil)).gives rfl

end AddPosition

section Tokens
variable {p : Producer ω ν Tagged} {s last next : p.State} {state : LexState} {inputs : List Tagged}

def lexed (classes : CharClasses) (state : LexState) (input : Tagged) :
    Noted ω (LexState × Option (List Located)) := do
  let (next, output) ← pure (state.step classes input)
  pure (next, some output)

theorem flatten_scanned_lexed (state : LexState) (inputs : List Tagged) :
    (scanned (lexed (ω := ω) classes) state inputs).flatten = state.emits classes inputs := by
  induction inputs generalizing state with
  | nil => rfl
  | cons input later ih =>
    have run : scanned (lexed (ω := ω) classes) state (input :: later) =
        (state.step classes input).2 ::
          scanned (lexed (ω := ω) classes) (state.step classes input).1 later := scanned_some rfl
    rw [run, List.flatten_cons, ih, LexState.emits]

theorem carriedBehind_lexed (state : LexState) (inputs : List Tagged) :
    carriedBehind (lexed (ω := ω) classes) state inputs = state.after classes inputs := by
  induction inputs generalizing state with
  | nil => rfl
  | cons input later ih => exact ih (state.step classes input).1

theorem Moves.tokens (classes : CharClasses) (state : LexState)
    (moves : Moves M p.step s asked inputs last) :
    Moves M (p.tokens classes).step ((s, state), none) asked (state.emits classes inputs)
      ((last, state.after classes inputs), none) := by
  rw [← flatten_scanned_lexed (ω := ω), ← carriedBehind_lexed (ω := ω)]
  exact moves.scanFilter.flatten

theorem gives_tokens (classes : CharClasses) (state : LexState)
    (moves : Moves M p.step s asked inputs last) (move : (p.step last).value = .done) :
    Gives M (p.tokens classes).step ((s, state), none) (state.emits classes inputs) :=
  (moves.tokens classes state).gives (by
    simp [Producer.tokens, flatScan, Producer.flatten, scanFilter, move])

theorem draws_tokens {input : Tagged} {front back : List Located} {token : Located}
    (moves : Moves M p.step s asked inputs last) (move : (p.step last).value = .yield input next)
    (completed : ((state.after classes inputs).step classes input).2 = front ++ token :: back) :
    ∃ behind, Draws M (p.tokens classes).step ((s, state), none) asked
      (state.emits classes inputs ++ front ++ [token]) behind := by
  have begun : ((p.tokens classes).step ((last, state.after classes inputs), none)).value =
      .skip ((next, ((state.after classes inputs).step classes input).1),
        some (front ++ token :: back)) := by
    simp [Producer.tokens, flatScan, Producer.flatten, scanFilter, move, ← completed]
  have read := (moves.tokens classes state).append
    (.skip begun (moves_inner _ front (token :: back)))
  rw [List.append_nil] at read
  exact ⟨_, draws_of_moves read rfl⟩

theorem draws_take_tokens {input : Tagged} {k : Nat} (moves : Moves M p.step s asked inputs last)
    (move : (p.step last).value = .yield input next)
    (fewer : (state.emits classes inputs).length < k)
    (enough : k ≤ (state.emits classes (inputs ++ [input])).length) :
    ∃ behind, Draws M (p.tokens classes).step ((s, state), none) asked
      ((state.emits classes (inputs ++ [input])).take k) behind := by
  have parts : state.emits classes (inputs ++ [input]) =
      state.emits classes inputs ++ ((state.after classes inputs).step classes input).2 := by
    rw [LexState.emits_append, LexState.emits, LexState.emits, List.append_nil]
  rw [parts] at enough ⊢
  generalize completed : ((state.after classes inputs).step classes input).2 = run at enough ⊢
  rw [List.length_append] at enough
  have inside : k - (state.emits classes inputs).length - 1 < run.length := by omega
  have count : k - (state.emits classes inputs).length - 1 + 1 =
    k - (state.emits classes inputs).length := by omega
  rw [List.take_append, List.take_of_length_le (Nat.le_of_lt fewer), ← count,
    ← List.take_append_getElem inside, ← List.append_assoc]
  have split : run = run.take (k - (state.emits classes inputs).length - 1) ++
      run[k - (state.emits classes inputs).length - 1] ::
        run.drop (k - (state.emits classes inputs).length - 1 + 1) := by
    rw [← List.drop_eq_getElem_cons inside, List.take_append_drop]
  exact draws_tokens moves move (completed.trans split)

end Tokens

section Stages
variable {M : Meaning Stage}

def tagged (chars : Sequence Stage) : Producer ω Stage Stage :=
  ((ofSequence chars).filterMap Stage.char?).addPosition.map fun t => pure (.tagged t)

def tokenized (classes : CharClasses) (inputs : Sequence Stage) : Producer ω Stage Stage :=
  (((ofSequence inputs).filterMap Stage.tagged?).tokens classes).map fun t => pure (.token t)

theorem grounded_tagged {bound : Nat} {sizes : Nat → Nat} {chars : Sequence Stage}
    (within : chars.Within bound sizes) :
    Grounded bound (tagged (ω := ω) chars).step sizes (tagged chars).state :=
  grounded_scanFilter <| grounded_scanFilter <| grounded_append
    (grounded_scanFilter (grounded_scanFilter (grounded_reading within)))
    (grounded_of_alone alone_unfold)

theorem grounded_tokenized {bound : Nat} {sizes : Nat → Nat} {inputs : Sequence Stage}
    (within : inputs.Within bound sizes) :
    Grounded bound (tokenized (ω := ω) classes inputs).step sizes
      (tokenized classes inputs).state :=
  grounded_scanFilter <| grounded_flatten (Grounded bound _)
    (grounded_scanFilter (grounded_scanFilter (grounded_reading within)))
    (fun _ _ inside => inside.keeps) fun _ _ _ _ _ _ => grounded_playList

theorem mute_tagged (chars : Sequence Stage) (s : (tagged (ω := ω) chars).State) :
    ((tagged chars).step s).notes = [] := by
  have silent : Silent (fun _ : ω => true) (tagged chars).step :=
    silent_map (silent_scanFilter
      (silent_append (silent_map (silent_filterMap silent_reading) fun _ => Noted.silent_pure)
        silent_ofList)
      fun _ _ => Noted.silent_pure) fun _ => Noted.silent_pure
  exact (silent s).notes_eq_nil

theorem mute_tokenized (inputs : Sequence Stage) (s : (tokenized (ω := ω) classes inputs).State) :
    ((tokenized classes inputs).step s).notes = [] := by
  have silent : Silent (fun _ : ω => true) (tokenized classes inputs).step :=
    silent_map (silent_flatScan (silent_filterMap silent_reading) (fun _ _ => Noted.silent_pure)
      silent_playList) fun _ => Noted.silent_pure
  exact (silent s).notes_eq_nil

/-- The first tagged characters ask for what is behind as many characters, the last excepted. -/
theorem draws_tagged {chars : Sequence Stage} {text : Listing Char} {n : Nat}
    (begins : M.Begins chars (text.known.map .char))
    (holds : text.complete = true → M.Holds chars (text.known.map .char))
    (inside : n < (Tagged.ofListing text).length) :
    ∃ cells t behind, M.Walks chars cells t ∧ cells.length = n ∧
      Draws M (tagged (ω := ω) chars).step (tagged chars).state (cells.map Cell.node)
        (((Tagged.ofListing text).take (n + 1)).map Stage.tagged) behind := by
  rcases Tagged.take_ofListing inside with
    ⟨front, c, later, shape, rfl, taken⟩ | ⟨ended, rfl, taken⟩
  · rw [shape, List.map_append, List.map_cons] at begins
    obtain ⟨cells, ⟨value, node⟩, walks, before, rfl⟩ := begins.walks
    have moves := (moves_ofSequence (ω := ω) walks).filterMap (f := Stage.char?)
    rw [before, Stage.filterMap_char?] at moves
    obtain ⟨behind, draws⟩ := draws_addPosition .start moves rfl
    rw [taken]
    exact ⟨cells, _, _, walks, by simpa using congrArg List.length before, draws.map⟩
  · obtain ⟨cells, walks, before⟩ := (holds ended).walks
    have moves := (moves_ofSequence (ω := ω) walks).filterMap (f := Stage.char?)
    rw [before, Stage.filterMap_char?] at moves
    obtain ⟨behind, draws⟩ := draws_addPosition_end .start moves rfl
    rw [taken]
    exact ⟨cells, _, _, walks, by simpa using congrArg List.length before, draws.map⟩

theorem draws_tokenized {inputs : Sequence Stage} {cells : List (Cell Stage)} {node : Node}
    {read : List Tagged} {input : Tagged} {k : Nat}
    (walks : M.Walks inputs cells (some ⟨.tagged input, node⟩))
    (before : cells.map Cell.value = read.map .tagged)
    (fewer : (tokensOf classes read).length < k)
    (enough : k ≤ (tokensOf classes (read ++ [input])).length) :
    ∃ behind, Draws M (tokenized (ω := ω) classes inputs).step (tokenized classes inputs).state
      (cells.map Cell.node) (((tokensOf classes (read ++ [input])).take k).map Stage.token)
      behind := by
  have moves := (moves_ofSequence (ω := ω) walks).filterMap (f := Stage.tagged?)
  rw [before, Stage.filterMap_tagged?] at moves
  rw [LexState.tokensOf_eq] at fewer enough ⊢
  obtain ⟨behind, draws⟩ := draws_take_tokens moves rfl fewer enough
  exact ⟨_, draws.map⟩

end Stages

end Producer

namespace Sequence

variable {ω : Type} {M : Meaning Stage} {store : Store ω Stage} {chars : Sequence Stage}
  {text : Listing Char} {classes : CharClasses} {k : Nat}

theorem returns_addPosition {text : List Char} (ready : store.Ready M) (has : store.Has chars)
    (holds : M.Holds chars (text.map .char)) :
    chars.addPosition.Returns store M fun s store' M' =>
      s.Lists ((Tagged.ofChars .start text).map .tagged) store' M' := by
  obtain ⟨cells, walks, before⟩ := holds.walks
  have moves := (Producer.moves_ofSequence (ω := ω) walks).filterMap (f := Stage.char?)
  rw [before, Stage.filterMap_char?] at moves
  have gives := Producer.gives_map (f := fun t => pure (Stage.tagged t))
    (Producer.gives_addPosition .start moves rfl)
  exact returns_lists ready (Producer.grounded_tagged has) gives

theorem returns_tokenize {inputs : Sequence Stage} {read : List Tagged} (ready : store.Ready M)
    (lists : inputs.Lists (read.map .tagged) store M) :
    (inputs.tokenize classes).Returns store M fun s store' M' =>
      s.Lists ((tokensOf classes read).map .token) store' M' := by
  obtain ⟨cells, walks, before⟩ := lists.holds.walks
  have moves := (Producer.moves_ofSequence (ω := ω) walks).filterMap (f := Stage.tagged?)
  rw [before, Stage.filterMap_tagged?] at moves
  have gives := Producer.gives_map (f := fun t => pure (Stage.token t))
    (Producer.gives_tokens classes .whiteSpace moves rfl)
  rw [← LexState.tokensOf_eq] at gives
  exact returns_lists ready (Producer.grounded_tokenized lists.has) gives

/-- The stream of a source that ends lists just the tokens of its characters, and ends behind them. -/
theorem tokenize_lists {text : List Char} (ready : store.Ready M) (has : store.Has chars)
    (holds : M.Holds chars (text.map .char)) :
    (do let inputs ← chars.addPosition
        inputs.tokenize classes : Lazy ω Stage (Sequence Stage)).Returns store M fun s store' M' =>
      s.Lists ((tokensOf classes (Tagged.ofChars .start text)).map .token) store' M' :=
  (returns_addPosition ready has holds).bind fun _ _ _ leaves lists =>
    returns_tokenize leaves.ready lists

/-- The tagged characters of a source, and its tokens from the one on that stands behind `count`
others. -/
def tokensBehind (classes : CharClasses) (count : Nat) (chars : Sequence Stage) :
    Lazy ω Stage (Sequence Stage × Sequence Stage) := do
  let inputs ← chars.addPosition
  let stream ← inputs.tokenize classes
  let front ← advance count stream
  pure (inputs, front)

theorem exists_least_emitting {inputs : List Tagged} (some_token : 1 ≤ k)
    (emitted : k ≤ (tokensOf classes inputs).length) :
    ∃ n, n < inputs.length ∧
      IsLeast {m | k ≤ (tokensOf classes (inputs.take m)).length} (n + 1) := by
  have reached : ∃ m, k ≤ (tokensOf classes (inputs.take m)).length :=
    ⟨inputs.length, by rwa [List.take_length]⟩
  have least : IsLeast {m | k ≤ (tokensOf classes (inputs.take m)).length} (Nat.find reached) :=
    ⟨Nat.find_spec reached, fun m more => Nat.find_min' reached more⟩
  cases found : Nat.find reached with
  | zero =>
    have none : k ≤ (tokensOf classes (inputs.take 0)).length := found ▸ Nat.find_spec reached
    exact absurd (some_token.trans none) (by simp [tokensOf, LexState.run])
  | succ n =>
    rw [found] at least
    exact ⟨n, least.2 (by rwa [Set.mem_ofPred, List.take_length]), least⟩

theorem take_tokensOf {inputs : List Tagged} {n : Nat}
    (enough : k ≤ (tokensOf classes (inputs.take n)).length) :
    (tokensOf classes (inputs.take n)).take k = (tokensOf classes inputs).take k := by
  conv_rhs => rw [← List.take_append_drop n inputs]
  rw [LexState.tokensOf_eq] at enough
  rw [LexState.tokensOf_eq, LexState.tokensOf_eq, LexState.emits_append,
    List.take_append_of_le_length enough]

/-- Of a source so much is known as `text` says, and it may have no end. When a token is at the front,
the tagged characters that have been forced are just the first ones on which the lexer emits as many
tokens, and of the source there is forced what taking as many characters forces. -/
theorem tokenize_reads_least (ready : store.Ready M) (has : store.Has chars)
    (begins : M.Begins chars (text.known.map .char))
    (holds : text.complete = true → M.Holds chars (text.known.map .char)) (some_token : 1 ≤ k)
    (emitted : k ≤ (tokensOf classes (Tagged.ofListing text)).length) :
    ∃ n, IsLeast {m | k ≤ (tokensOf classes ((Tagged.ofListing text).take m)).length} n ∧
      ∃ inputs front store' behind read,
        Store.Settles (fun fuel => tokensBehind classes (k - 1) chars fuel store)
          ((inputs, front), store') ∧
        front.first? = (tokensOf classes (Tagged.ofListing text))[k - 1]?.map .token ∧
        store'.forced inputs = ((Tagged.ofListing text).take n).map .tagged ∧
        Store.Settles (fun fuel => advance (n - 1) chars fuel store) (behind, read) ∧
        store'.SameBelow store.spines.size read := by
  obtain ⟨n, inside, least⟩ := exists_least_emitting some_token emitted
  have fewer : (tokensOf classes ((Tagged.ofListing text).take n)).length < k :=
    Nat.lt_of_not_le fun enough => absurd (least.2 enough) (Nat.not_succ_le_self n)
  have enough : k ≤ (tokensOf classes ((Tagged.ofListing text).take (n + 1))).length := least.1
  have tokens := take_tokensOf enough
  have taken := List.take_append_getElem inside
  rw [← taken] at enough tokens
  obtain ⟨cells, t, last, walks, rfl, draws⟩ :=
    Producer.draws_tagged (ω := ω) begins holds inside
  rw [← taken, List.map_append] at draws
  have count : (((tokensOf classes (Tagged.ofListing text)).take k).map Stage.token).length = k := by
    simp [emitted]
  obtain ⟨inputs, front, store', read, runs, token, forced, reads, same⟩ :=
    Store.share_share_reads (Producer.mute_tagged chars) Producer.mute_tokenized
      (Producer.grounded_tagged has) Producer.grounded_tokenized ready has walks draws
      (fun walks' before => tokens ▸ Producer.draws_tokenized walks' before fewer enough)
      (List.ne_nil_of_length_pos (by omega))
  refine ⟨cells.length + 1, least, inputs, front, store', t, read, ?_, ?_, ?_, reads, same⟩
  · rw [count] at runs
    exact runs
  · have inside' : k - 1 < (tokensOf classes (Tagged.ofListing text)).length := by omega
    rw [token, List.getLast?_map, List.getLast?_take, if_neg (by omega),
      List.getElem?_eq_getElem inside', Option.some_or]
  · rw [forced, ← taken, List.map_append]
    rfl

/-- A text that starts again at its end: the second token comes with the second blank. -/
theorem tokenize_reads_least_endless :
    ∃ (chars : Sequence Stage) (store : Store Char Stage) (M : Meaning Stage),
      Store.Settles (fun fuel => ((Producer.readText ['a', ' '] true).map fun c =>
        pure (Stage.char c)).share fuel .empty) (chars, store) ∧
      store.Ready M ∧ store.Has chars ∧ M.Begins chars (['a', ' ', 'a', ' '].map .char) ∧
      ∃ inputs front store' behind read,
        Store.Settles (fun fuel => tokensBehind .standard 1 chars fuel store)
          ((inputs, front), store') ∧
        front.first? = some (.token ⟨.identifier "a", ⟨1, 3⟩⟩) ∧
        store'.forced inputs = (Tagged.placed .start ['a', ' ', 'a', ' ']).map .tagged ∧
        Store.Settles (fun fuel => advance 3 chars fuel store) (behind, read) ∧
        store'.SameBelow store.spines.size read := by
  let text : Listing Char := ⟨['a', ' ', 'a', ' '], false⟩
  let source : Producer Char Stage Stage :=
    (Producer.readText ['a', ' '] true).map fun c => pure (Stage.char c)
  have grounded : Producer.Grounded 0 source.step (Store.empty : Store Char Stage).size
      source.state :=
    Producer.grounded_scanFilter (Producer.grounded_of_alone Producer.alone_unfold)
  obtain ⟨chars, store, M, settles, leaves, shared⟩ :=
    Producer.returns_share Store.ready_empty grounded (.yield rfl)
  have begins : M.Begins chars (text.known.map .char) := by
    obtain ⟨n, more⟩ := (shared.denotes.ge 4).exists
    obtain ⟨later, same⟩ : text.known.map Stage.char <+: (M.shown n chars).known := more.1
    have shown : M.Begins chars (M.shown n chars).known := Meaning.begins_shown
    rw [← same] at shown
    exact shown.of_append
  have holds : text.complete = true → M.Holds chars (text.known.map .char) := nofun
  have least : IsLeast {m | 2 ≤ (tokensOf .standard ((Tagged.ofListing text).take m)).length} 4 := by
    refine ⟨by decide +kernel, fun m enough => ?_⟩
    by_contra fewer
    obtain rfl | rfl | rfl | rfl : m = 0 ∨ m = 1 ∨ m = 2 ∨ m = 3 := by omega
    all_goals exact absurd enough (by decide +kernel)
  have second : (tokensOf .standard (Tagged.ofListing text))[1]? =
      some ⟨.identifier "a", ⟨1, 3⟩⟩ := by decide +kernel
  obtain ⟨n, least', inputs, front, store', behind, read, runs, token, forced⟩ :=
    @tokenize_reads_least Char M store chars text .standard 2 leaves.ready shared.has begins holds
      (by decide) (by decide +kernel)
  obtain rfl := least.unique least'
  rw [second] at token
  exact ⟨chars, store, M, settles, leaves.ready, shared.has, begins, inputs, front, store', behind,
    read, runs, token, forced⟩

end Sequence

end DemandLex
