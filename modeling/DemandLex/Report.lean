import DemandLex.Diagnostic
import DemandLex.Json
import DemandLex.Lexer.Tokens

/-! Machine-readable reports on tokens and errors. -/

namespace DemandLex

/-- One token per line of text, one JSON value for everything, or one JSON value per line. -/
inductive OutputMode where
  | text
  | json
  | jsonl
  deriving DecidableEq, Repr

namespace OutputMode

def ofName? : String → Option OutputMode
  | "text" => some text
  | "json" => some json
  | "jsonl" => some jsonl
  | _ => none

def name : OutputMode → String
  | text => "Text"
  | json => "Json"
  | jsonl => "Jsonl"

end OutputMode

namespace Report

def location (p : Position) : Json := .object [("line", .nat p.line), ("column", .nat p.column)]

/-- The value of a token. An infinite number is a string, so that it is not taken for a terminal. -/
def tokenValue : Token → Json
  | .terminal => .null
  | .unknownCharacter c => .string c.toString
  | .identifier value => .string value
  | .string value => .string value
  | .number value => if value.isFinite then .float value else .string value.toText
  | .symbol s => .string s.toChar.toString

def token (t : Located) : Json :=
  .object [("type", .string "token"), ("kind", .string t.token.kind),
    ("value", tokenValue t.token), ("location", location t.position)]

def error : Diagnostic → Json
  | .lexical e => .object [("type", .string "error"), ("message", .string e.message),
      ("location", location e.position)]
  | .interval e => .object [("type", .string "error"), ("message", .string e.message)]

def errorCount (tokens : List Located) : Nat := tokens.countP Located.isError

def counts (total errors : Nat) : Json :=
  .object [("total", .nat total), ("errors", .nat errors)]

def tokens (ts : List Located) : Json :=
  let errors := errorCount ts
  .object [("type", .string "tokenize"), ("success", .bool (errors == 0)),
    ("summary", counts ts.length errors), ("tokens", .array (ts.map token)),
    ("errors", .array ((LexError.ofTokens ts).map fun e => error (.lexical e)))]

def summary (ts : List Located) : Json :=
  let errors := errorCount ts
  .object [("type", .string "summary"), ("success", .bool (errors == 0)),
    ("summary", counts ts.length errors)]

def jsonLines (ts : List Located) : String :=
  ts.foldl (fun text t => text ++ (token t).compact ++ "\n") "" ++ (summary ts).compact ++ "\n"

def textLines (ts : List Located) : String :=
  ts.foldl (fun text t => text ++ t.render ++ "\n") ""

end Report

end DemandLex
