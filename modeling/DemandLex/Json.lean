import DemandLex.Decimal.Layout

/-! JSON values and their compact text. -/

namespace DemandLex

inductive Json where
  | null
  | bool (value : Bool)
  | nat (value : Nat)
  | float (value : Binary64)
  | string (value : String)
  | array (items : List Json)
  | object (fields : List (String × Json))

namespace Json

def escapeChar (c : Char) : String :=
  if c = '"' then "\\\""
  else if c = '\\' then "\\\\"
  else if c = '\x08' then "\\b"
  else if c = '\t' then "\\t"
  else if c = '\n' then "\\n"
  else if c = '\x0c' then "\\f"
  else if c = '\x0d' then "\\r"
  else if c.toNat < 0x20 then
    "\\u00" ++ String.ofList [Nat.digitChar (c.toNat / 16), Nat.digitChar (c.toNat % 16)]
  else c.toString

def quote (s : String) : String :=
  s.toList.foldl (fun text c => text ++ escapeChar c) "\"" ++ "\""

mutual

/-- The text of a value without blanks, with the fields of objects in their order. -/
def compact : Json → String
  | null => "null"
  | bool true => "true"
  | bool false => "false"
  | nat value => toString value
  | float value => Decimal.Layout.json.render value
  | string value => quote value
  | array items => "[" ++ ",".intercalate (compactItems items) ++ "]"
  | object fields => "\x7b" ++ ",".intercalate (compactFields fields) ++ "\x7d"

def compactItems : List Json → List String
  | [] => []
  | item :: rest => compact item :: compactItems rest

def compactFields : List (String × Json) → List String
  | [] => []
  | (name, value) :: rest => (quote name ++ ":" ++ compact value) :: compactFields rest

end

end Json

end DemandLex
