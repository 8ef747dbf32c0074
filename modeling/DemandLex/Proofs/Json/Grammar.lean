import DemandLex.Proofs.Decimal.Literal
import DemandLex.Proofs.Lexer.LiteralValue

/-! JSON values, every text that RFC 8259 lets them be written as, and their tokens. -/

namespace DemandLex.JsonText

open Grammar

/-- A number as RFC 8259 has it: no zero in front of other digits, and at least one digit wherever
digits are announced. -/
structure Number where
  negative : Bool
  parts : Parts
  formed : parts.WellFormed
  leading : ∀ later, parts.whole = '0' :: later → later = []
  fraction : ∀ digits ∈ parts.fraction, digits ≠ []
  exponent : ∀ e ∈ parts.exponent, e.digits ≠ []

def Number.chars (n : Number) : List Char := (if n.negative then ['-'] else []) ++ n.parts.chars

def Number.absolute (n : Number) : ℚ := n.parts.absolute

def Number.value (n : Number) : Binary64 := n.parts.decimal.value

inductive Value where
  | null
  | bool (b : Bool)
  | number (n : Number)
  | string (text : String)
  | array (items : List Value)
  | object (members : List (String × Value))

def Blank (chars : List Char) : Prop := ∀ c ∈ chars, isBlank c = true

structure WritesUnit (digits : List Char) (unit : Nat) : Prop where
  four : digits.length = 4
  hex : ∀ c ∈ digits, (LexState.hexValue? c).isSome = true
  number : hexNumber digits = unit

/-- The ways to write characters between quotes: each as it is, unless it is a quote, a backslash or
a control; by a short escape, if it has one; or by its one or two units. -/
inductive Spells : List Char → List Char → Prop
  | nil : Spells [] []
  | raw {c : Char} {text body : List Char} (visible : 0x20 ≤ c.toNat) (quote : c ≠ '"')
      (backslash : c ≠ '\\') (later : Spells text body) : Spells (c :: text) (c :: body)
  | short {c letter : Char} {text body : List Char} (escape : (letter, c) ∈ shortEscapes)
      (later : Spells text body) : Spells (c :: text) ('\\' :: letter :: body)
  | unit {c : Char} {digits text body : List Char} {unit : Nat} (whole : Utf16.units c = [unit])
      (writes : WritesUnit digits unit) (later : Spells text body) :
      Spells (c :: text) ('\\' :: 'u' :: (digits ++ body))
  | pair {c : Char} {first second text body : List Char} {high low : Nat}
      (halves : Utf16.units c = [high, low]) (writesHigh : WritesUnit first high)
      (writesLow : WritesUnit second low) (later : Spells text body) :
      Spells (c :: text) ('\\' :: 'u' :: (first ++ '\\' :: 'u' :: (second ++ body)))

inductive Quotes : String → List Char → Prop
  | mk {text : String} {body : List Char} (spells : Spells text.toList body) :
      Quotes text ('"' :: (body ++ ['"']))

mutual

/-- The texts of a value, without white space around them. -/
inductive Renders : Value → List Char → Prop
  | null : Renders .null "null".toList
  | true : Renders (.bool true) "true".toList
  | false : Renders (.bool false) "false".toList
  | number {n : Number} : Renders (.number n) n.chars
  | string {text : String} {chars : List Char} (quotes : Quotes text chars) :
      Renders (.string text) chars
  | noItems {inside : List Char} (blank : Blank inside) :
      Renders (.array []) ('[' :: (inside ++ [']']))
  | array {items : List Value} {inside : List Char} (all : Items items inside) :
      Renders (.array items) ('[' :: (inside ++ [']']))
  | noMembers {inside : List Char} (blank : Blank inside) :
      Renders (.object []) ('\x7b' :: (inside ++ ['\x7d']))
  | object {members : List (String × Value)} {inside : List Char} (all : Members members inside) :
      Renders (.object members) ('\x7b' :: (inside ++ ['\x7d']))

inductive Padded : Value → List Char → Prop
  | mk {v : Value} {before text after : List Char} (front : Blank before) (renders : Renders v text)
      (back : Blank after) : Padded v (before ++ (text ++ after))

inductive Items : List Value → List Char → Prop
  | last {v : Value} {text : List Char} (item : Padded v text) : Items [v] text
  | more {v : Value} {later : List Value} {text rest : List Char} (item : Padded v text)
      (all : Items later rest) : Items (v :: later) (text ++ ',' :: rest)

inductive Members : List (String × Value) → List Char → Prop
  | last {name : String} {v : Value} {before key between text : List Char} (front : Blank before)
      (quotes : Quotes name key) (back : Blank between) (value : Padded v text) :
      Members [(name, v)] (before ++ (key ++ (between ++ ':' :: text)))
  | more {name : String} {v : Value} {later : List (String × Value)}
      {before key between text rest : List Char} (front : Blank before) (quotes : Quotes name key)
      (back : Blank between) (value : Padded v text) (all : Members later rest) :
      Members ((name, v) :: later) (before ++ (key ++ (between ++ ':' :: (text ++ ',' :: rest))))

end

mutual

/-- The tokens of a value: its structure, its strings as they are, its numbers without their
signs. -/
def Value.tokens : Value → List Token
  | .null => [.identifier "null"]
  | .bool b => [.identifier (if b then "true" else "false")]
  | .number n => (if n.negative then [.symbol .minus] else []) ++ [.number n.value]
  | .string text => [.string text]
  | .array items => .symbol .leftBracket :: (itemTokens items ++ [.symbol .rightBracket])
  | .object members => .symbol .leftBrace :: (memberTokens members ++ [.symbol .rightBrace])

def itemTokens : List Value → List Token
  | [] => []
  | [v] => v.tokens
  | v :: later => v.tokens ++ .symbol .comma :: itemTokens later

def memberTokens : List (String × Value) → List Token
  | [] => []
  | [(name, v)] => .string name :: .symbol .colon :: v.tokens
  | (name, v) :: later =>
    .string name :: .symbol .colon :: (v.tokens ++ .symbol .comma :: memberTokens later)

end

end DemandLex.JsonText
