/-! Lines and columns, both counted from one. -/

namespace DemandLex

structure Position where
  line : Nat
  column : Nat
  deriving DecidableEq, Repr, Inhabited

namespace Position

def start : Position := ⟨1, 1⟩

def advance (p : Position) (c : Char) : Position :=
  if c = '\n' then ⟨p.line + 1, 1⟩ else ⟨p.line, p.column + 1⟩

def compare (p q : Position) : Ordering :=
  (Ord.compare p.line q.line).then (Ord.compare p.column q.column)

def render (p : Position) : String := toString p.line ++ ":" ++ toString p.column

end Position

/-- A character and its position; the end of the input has a position too. -/
structure Tagged where
  char : Option Char
  position : Position
  deriving DecidableEq, Repr

namespace Tagged

/-- The characters of a text in order, from a position on, and the end of the input behind them. -/
def ofChars (p : Position) : List Char → List Tagged
  | [] => [⟨none, p⟩]
  | c :: rest => ⟨some c, p⟩ :: ofChars (p.advance c) rest

theorem length_ofChars (p : Position) (chars : List Char) :
    (ofChars p chars).length = chars.length + 1 := by
  induction chars generalizing p with
  | nil => rfl
  | cons c rest ih => simp [ofChars, ih]

def ofText (text : String) : List Tagged := ofChars .start text.toList

end Tagged

end DemandLex
