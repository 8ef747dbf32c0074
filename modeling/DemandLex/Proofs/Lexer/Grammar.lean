import DemandLex.Lexer.State

/-! The lexemes of the language, and how a text falls into lexemes and white space when the longest
lexeme is taken at every character. Nothing here mentions the states of the lexer. -/

namespace DemandLex.Grammar

def isBlank (c : Char) : Bool := c == ' ' || c == '\t' || c == '\n' || c == '\x0d'

def isLetter (c : Char) : Bool := decide ('A' ≤ c ∧ c ≤ 'Z') || decide ('a' ≤ c ∧ c ≤ 'z')

def startsIdentifier (c : Char) : Bool := c == '$' || c == '_' || isLetter c

def continuesIdentifier (c : Char) : Bool := startsIdentifier c || Decimal.isDigit c

def marksExponent (c : Char) : Bool := c == 'e' || c == 'E'

def isSign (c : Char) : Bool := c == '+' || c == '-'

structure Exponent where
  letter : Char
  sign : Option Char
  digits : List Char

/-- The parts of a numeral; the fraction is what stands behind a dot. -/
structure Parts where
  whole : List Char
  fraction : Option (List Char)
  exponent : Option Exponent

def Exponent.chars (e : Exponent) : List Char := e.letter :: (e.sign.toList ++ e.digits)

def Parts.chars (n : Parts) : List Char :=
  n.whole ++ ((n.fraction.elim [] ('.' :: ·)) ++ n.exponent.elim [] Exponent.chars)

structure Exponent.WellFormed (e : Exponent) : Prop where
  letter : marksExponent e.letter = true
  sign : ∀ c ∈ e.sign, isSign c = true
  digits : ∀ c ∈ e.digits, Decimal.isDigit c = true

structure Parts.WellFormed (n : Parts) : Prop where
  nonempty : n.whole ≠ []
  whole : ∀ c ∈ n.whole, Decimal.isDigit c = true
  fraction : ∀ digits ∈ n.fraction, ∀ c ∈ digits, Decimal.isDigit c = true
  exponent : ∀ e ∈ n.exponent, e.WellFormed

def Exponent.apply (e : Exponent) (n : Numeral) : Numeral :=
  e.digits.foldl (fun n c => n.exponentDigit (Decimal.digitValue c))
    (if e.sign = some '-' then n.negateExponent else n)

def Parts.numeral (n : Parts) : Numeral :=
  let whole := n.whole.foldl (fun n c => n.integerDigit (Decimal.digitValue c)) .empty
  let both := (n.fraction.getD []).foldl (fun n c => n.fractionDigit (Decimal.digitValue c)) whole
  n.exponent.elim both fun e => e.apply both

/-- What may stand in a string: any character but a quote, a backslash and a line feed, and behind a
backslash any character but a line feed. -/
inductive Body : List Char → Prop
  | nil : Body []
  | plain {c : Char} {later : List Char} (quote : c ≠ '"') (backslash : c ≠ '\\') (feed : c ≠ '\n')
      (inside : Body later) : Body (c :: later)
  | escape {c : Char} {later : List Char} (feed : c ≠ '\n') (inside : Body later) :
      Body ('\\' :: c :: later)

/-- What cuts a string short: a line feed or the end of the text. -/
def Cuts (rest : List Char) : Prop := ∀ c ∈ rest.head?, c = '\n'

def hexDigits : Nat → List Char → List Char
  | count + 1, c :: later =>
    if (LexState.hexValue? c).isSome then c :: hexDigits count later else []
  | _, _ => []

def hexNumber (digits : List Char) : Nat :=
  digits.foldl (fun code c => code * 16 + (LexState.hexValue? c).getD 0) 0

/-- A text behind a backslash and `u` with these hexadecimal digits: four of them make a unit; with
fewer the two characters stand for themselves and the digits are dropped. -/
def addUnit (text : LiteralText) (digits : List Char) : LiteralText :=
  if digits.length = 4 then text.pushUnit (hexNumber digits) else text.append "\\u"

def addEscape (text : LiteralText) (c : Char) : LiteralText :=
  match LexState.escaped? c with
  | some d => text.push d
  | none => (text.push '\\').push c

def decode (text : LiteralText) : List Char → LiteralText
  | [] => text
  | '\\' :: 'u' :: later =>
    decode (addUnit text (hexDigits 4 later)) (later.drop (hexDigits 4 later).length)
  | '\\' :: c :: later => decode (addEscape text c) later
  | c :: later => decode (text.push c) later
termination_by body => body.length

/-- The token of a lexeme, the lexeme and the text behind it. A cut string keeps all before the cut,
also a backslash with nothing behind it. -/
inductive Lexeme : Token → List Char → List Char → Prop
  | identifier {c : Char} {later rest : List Char} (first : startsIdentifier c = true)
      (continues : ∀ d ∈ later, continuesIdentifier d = true) :
      Lexeme (.identifier (String.ofList (c :: later))) (c :: later) rest
  | numeral {n : Parts} {rest : List Char} (formed : n.WellFormed) :
      Lexeme (.number n.numeral.value) n.chars rest
  | closed {body rest : List Char} (inside : Body body) :
      Lexeme (.string (decode .empty body).finish) ('"' :: (body ++ ['"'])) rest
  | cut {body rest : List Char} (inside : Body body) (cuts : Cuts rest) :
      Lexeme (.string (decode .empty body).finish) ('"' :: body) rest
  | cutEscape {body rest : List Char} (inside : Body body) (cuts : Cuts rest) :
      Lexeme (.string ((decode .empty body).push '\\').finish) ('"' :: (body ++ ['\\'])) rest
  | symbol {s : Symbol} {rest : List Char} : Lexeme (.symbol s) [s.toChar] rest
  | unknown {c : Char} {rest : List Char} (blank : isBlank c = false)
      (identifier : startsIdentifier c = false) (digit : Decimal.isDigit c = false) (quote : c ≠ '"')
      (symbol : ∀ s : Symbol, s.toChar ≠ c) : Lexeme (.unknownCharacter c) [c] rest

structure Longest (token : Token) (chars rest : List Char) : Prop where
  lexeme : Lexeme token chars rest
  longest (token' : Token) (chars' rest' : List Char) (same : chars' ++ rest' = chars ++ rest)
    (other : Lexeme token' chars' rest') : chars'.length ≤ chars.length

/-- A piece of a text: a character that is skipped, or a lexeme. -/
inductive Piece where
  | blank (c : Char)
  | lexeme (token : Token) (chars : List Char)

def Piece.chars : Piece → List Char
  | blank c => [c]
  | lexeme _ chars => chars

inductive Splits : List Char → List Piece → Prop
  | nil : Splits [] []
  | blank {c : Char} {rest : List Char} {pieces : List Piece} (skipped : isBlank c = true)
      (later : Splits rest pieces) : Splits (c :: rest) (.blank c :: pieces)
  | lexeme {token : Token} {chars rest : List Char} {pieces : List Piece}
      (longest : Longest token chars rest) (later : Splits rest pieces) :
      Splits (chars ++ rest) (.lexeme token chars :: pieces)

/-- The tokens of the pieces, each at its first character, and the terminal behind the last. -/
def tokens (p : Position) : List Piece → List Located
  | [] => [⟨.terminal, p⟩]
  | .blank c :: later => tokens (p.advance c) later
  | .lexeme token chars :: later => ⟨token, p⟩ :: tokens (chars.foldl Position.advance p) later

end DemandLex.Grammar
