import DemandLex.Lexer.State

/-! The tokens of a text. -/

namespace DemandLex

namespace LexState

def feed (classes : CharClasses) (sofar : LexState × Array Located) (input : Tagged) :
    LexState × Array Located :=
  let (next, tokens) := sofar.1.step classes input
  (next, tokens.foldl Array.push sofar.2)

def run (classes : CharClasses) (state : LexState) (inputs : List Tagged) :
    LexState × Array Located :=
  inputs.foldl (feed classes) (state, #[])

end LexState

/-- The tokens of tagged characters. A token is handed out when a character behind it is read, and
nothing is read behind the end of the input. -/
def tokensOf (classes : CharClasses) (inputs : List Tagged) : List Located :=
  (LexState.whiteSpace.run classes inputs).2.toList

def tokenizeWith (classes : CharClasses) (source : String) : List Located :=
  tokensOf classes (Tagged.ofText source)

def tokenize (source : String) : List Located := tokenizeWith .standard source

end DemandLex
