import DemandLex.Lexer.State
import DemandLex.Text.Record

/-! Records of the lexer's states. -/

namespace DemandLex

def Position.describe (p : Position) : String :=
  Text.record "Position" [("line", toString p.line), ("column", toString p.column)]

def Numeral.describe (n : Numeral) : String :=
  Text.record "Number" [("digits", Text.quoteString n.digits), ("scale", toString n.scale),
    ("exponent", toString n.exponent), ("negative_exponent", toString n.negativeExponent)]

def LiteralText.describe (t : LiteralText) : String :=
  Text.record "Text" [("value", Text.quoteString t.value),
    ("high_surrogate", Text.option (t.highSurrogate.map toString))]

def NumeralPhase.describe : NumeralPhase → String
  | beforeDot => "BeforeDot"
  | afterDot => "AfterDot"
  | afterExponent => "AfterE"
  | afterExponentSign => "AfterESign"

def StringPhase.describe : StringPhase → String
  | main => "Main"
  | escape => "Escape"
  | unit code count => Text.record "Unicode" [("code", toString code), ("count", toString count)]

def LexState.describe : LexState → String
  | whiteSpace => "WhiteSpace"
  | identifier start value =>
    Text.record "Id" [("start", start.describe), ("value", Text.quoteString value)]
  | numeral start n phase => Text.record "Number"
      [("start", start.describe), ("number", n.describe), ("phase", phase.describe)]
  | string start text phase => Text.record "String"
      [("start", start.describe), ("text", text.describe), ("phase", phase.describe)]
  | terminal => "Terminal"

end DemandLex
