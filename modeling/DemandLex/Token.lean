import DemandLex.Decimal.Layout
import DemandLex.Position
import DemandLex.Text.Quoted

/-! Tokens and where they stand. -/

namespace DemandLex

inductive Symbol where
  | leftBrace
  | rightBrace
  | colon
  | comma
  | leftBracket
  | rightBracket
  | minus
  deriving DecidableEq, Repr

namespace Symbol

def toChar : Symbol → Char
  | leftBrace => '\x7b'
  | rightBrace => '\x7d'
  | colon => ':'
  | comma => ','
  | leftBracket => '['
  | rightBracket => ']'
  | minus => '-'

def all : List Symbol :=
  [leftBrace, rightBrace, colon, comma, leftBracket, rightBracket, minus]

def ofChar? (c : Char) : Option Symbol := all.find? (·.toChar == c)

@[simp] theorem ofChar?_toChar (s : Symbol) : ofChar? s.toChar = some s := by
  cases s <;> rfl

theorem toChar_of_ofChar? {c : Char} {s : Symbol} (found : ofChar? c = some s) :
    s.toChar = c := by
  simpa using List.find?_some found

def name : Symbol → String
  | leftBrace => "LeftBrace"
  | rightBrace => "RightBrace"
  | colon => "Colon"
  | comma => "Comma"
  | leftBracket => "LeftBracket"
  | rightBracket => "RightBracket"
  | minus => "Minus"

end Symbol

inductive Token where
  | terminal
  /-- A character that starts no token; the lexer goes on behind it. -/
  | unknownCharacter (c : Char)
  | identifier (value : String)
  | number (value : Binary64)
  | symbol (symbol : Symbol)
  | string (value : String)
  deriving DecidableEq, Repr

namespace Token

def isError : Token → Bool
  | unknownCharacter _ => true
  | _ => false

def kind : Token → String
  | terminal => "terminal"
  | unknownCharacter _ => "unknown_character_error"
  | identifier _ => "id"
  | number _ => "float_number"
  | symbol _ => "symbol"
  | string _ => "string"

def render : Token → String
  | terminal => "Terminal"
  | unknownCharacter c => "UnknownCharacterError(" ++ Text.quoteChar c ++ ")"
  | identifier value => "Id(" ++ Text.quoteString value ++ ")"
  | number value => "FloatNumber(" ++ value.toText ++ ")"
  | symbol s => "Symbol(" ++ s.toChar.toString ++ ")"
  | string value => "String(" ++ Text.quoteString value ++ ")"

/-- Equality of tokens, with numbers compared in their total order. -/
def same : Token → Token → Bool
  | number x, number y => x.same y
  | s, t => s == t

end Token

/-- A token and the position of its first character; the terminal stands just behind the input. -/
structure Located where
  token : Token
  position : Position
  deriving DecidableEq, Repr

namespace Located

def render (t : Located) : String := t.token.render ++ " @ " ++ t.position.render

def same (s t : Located) : Bool := s.token.same t.token && s.position == t.position

def isError (t : Located) : Bool := t.token.isError

end Located

end DemandLex
