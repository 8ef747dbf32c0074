import DemandLex.Text.Printable

/-! Text and characters between quotes. -/

namespace DemandLex.Text

def codePoint (c : Char) : String :=
  "\\u\x7b" ++ String.ofList (Nat.toDigits 16 c.toNat) ++ "\x7d"

/-- A character between quotes of one kind. The other kind of quote stands for itself. -/
def escapeChar (quote c : Char) : String :=
  if c = '\x00' then "\\0"
  else if c = '\t' then "\\t"
  else if c = '\r' then "\\r"
  else if c = '\n' then "\\n"
  else if c = '\\' then "\\\\"
  else if c = quote then "\\" ++ c.toString
  else if hidden.contains c then codePoint c
  else c.toString

def quoteString (s : String) : String :=
  s.toList.foldl (fun text c => text ++ escapeChar '"' c) "\"" ++ "\""

def quoteChar (c : Char) : String := "'" ++ escapeChar '\'' c ++ "'"

end DemandLex.Text
