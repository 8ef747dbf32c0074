import DemandLex.Lexer.State
import DemandLex.Sequence.Lazy

/-! Tokens read on demand from a lazy source of characters. -/

namespace DemandLex

namespace Producer
variable {ω ν : Type}

/-- Tags characters with their positions, with the end of the input behind them. -/
def addPosition (chars : Producer ω ν Char) : Producer ω ν Tagged :=
  ((chars.map fun c => pure (some c)).append (ofList [none])).scanFilter Position.start fun p c =>
    pure (match c with
      | some c => (p.advance c, some ⟨some c, p⟩)
      | none => (p, some ⟨none, p⟩))

def tokens (classes : CharClasses) (inputs : Producer ω ν Tagged) : Producer ω ν Located :=
  inputs.flatScan LexState.whiteSpace (fun state input => pure (state.step classes input)) playList

/-- The characters of a text, each noted when it is handed out; `forever` starts the text again at
its end. -/
def readText (text : List Char) (forever : Bool) : Producer Char ν Char :=
  unfold text fun
    | c :: rest => ⟨[c], some (c, rest)⟩
    | [] =>
      match forever, text with
      | true, c :: rest => ⟨[c], some (c, rest)⟩
      | _, _ => ⟨[], none⟩

end Producer

/-- An element on the way from characters to tokens. -/
inductive Stage where
  | char (c : Char)
  | tagged (t : Tagged)
  | token (t : Located)
  deriving DecidableEq, Repr

namespace Stage

def char? : Stage → Option Char
  | char c => some c
  | _ => none

def tagged? : Stage → Option Tagged
  | tagged t => some t
  | _ => none

def token? : Stage → Option Located
  | token t => some t
  | _ => none

end Stage

namespace Sequence
variable {ω : Type}

def addPosition (chars : Sequence Stage) : Lazy ω Stage (Sequence Stage) :=
  (((Producer.ofSequence chars).filterMap Stage.char?).addPosition.map fun t =>
    pure (.tagged t)).share

def tokenize (classes : CharClasses) (inputs : Sequence Stage) : Lazy ω Stage (Sequence Stage) :=
  ((((Producer.ofSequence inputs).filterMap Stage.tagged?).tokens classes).map fun t =>
    pure (.token t)).share

end Sequence

/-- A token of a stream, and how many characters had been read when it was at the front. -/
structure Demanded where
  token : Located
  charsRead : Nat

def demandTokens (count : Nat) (stream : Sequence Stage) :
    Lazy Char Stage (Array Demanded × Sequence Stage) :=
  Lazy.iterate (fun (taken, left, stream) =>
    match left, stream with
    | left + 1, some cell => do
      let read ← Lazy.noteCount
      let rest ← Sequence.rest (some cell)
      let token := cell.value.token?.map fun t => Demanded.mk t read
      pure (.inl (taken ++ token.toArray, left, rest))
    | _, _ => pure (.inr (taken, stream))) (#[], count, stream)

/-- What reading the first tokens of a text on demand has read of it: the tokens, the characters
read in all, and whether the stream has ended. -/
structure DemandReport where
  tokens : Array Demanded
  read : Nat
  done : Bool

def demandReport (source : String) (forever : Bool) (take : Nat) :
    Lazy Char Stage DemandReport := do
  let chars ← ((Producer.readText source.toList forever).map fun c => pure (.char c)).share
  let inputs ← chars.addPosition
  let stream ← inputs.tokenize .standard
  let (tokens, rest) ← demandTokens take stream
  let read ← Lazy.noteCount
  pure ⟨tokens, read, rest.isNone⟩

end DemandLex
