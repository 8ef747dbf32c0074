import DemandLex.Decimal.Digits
import DemandLex.Text.Blank

/-! Log lines and the level up to which they are kept. -/

namespace DemandLex.CommandLine

/-- From the least to the most detailed. -/
inductive Level where
  | error
  | warn
  | info
  | debug
  | trace
  deriving DecidableEq, Repr

namespace Level

def detail : Level → Nat
  | error => 1
  | warn => 2
  | info => 3
  | debug => 4
  | trace => 5

def name : Level → String
  | error => "ERROR"
  | warn => "WARN"
  | info => "INFO"
  | debug => "DEBUG"
  | trace => "TRACE"

def all : List Level := [error, warn, info, debug, trace]

def number? (text : String) : Option Nat :=
  let digits := match text.toList with
    | '+' :: rest => rest
    | digits => digits
  if digits.isEmpty || !digits.all Decimal.isDigit then none else some (Decimal.value digits)

/-- A level by its name in any letter case, or by its number. -/
def ofText? (text : String) : Option Level :=
  all.find? fun level => text.toUpper == level.name || number? text == some level.detail

def ofVerbosity : Nat → Level
  | 0 => warn
  | 1 => info
  | 2 => debug
  | _ => trace

/-- A level set in the environment wins over the verbosity. -/
def choose (setting : Option String) (verbosity : Nat) : Level :=
  (setting.bind ofText?).getD (ofVerbosity verbosity)

end Level

structure LogLine where
  level : Level
  message : String
  fields : List (String × String)
  deriving DecidableEq, Repr

namespace LogLine

def render (l : LogLine) : String :=
  l.fields.foldl (fun text (field, value) => text ++ " " ++ field ++ "=" ++ value)
    (l.level.name ++ " " ++ l.message)

def head (l : LogLine) : String :=
  Text.trimEnd (l.render.toList.takeWhile (· ≠ '\n'))

/-- What stands behind the first line feed of the text. A log has one line, so this is no longer
part of it. -/
def spill (l : LogLine) : String :=
  match l.render.toList.dropWhile (· ≠ '\n') with
  | [] => ""
  | _ :: rest => String.ofList (rest ++ ['\n'])

def isKept (chosen : Level) (l : LogLine) : Bool := l.level.detail ≤ chosen.detail

end LogLine

end DemandLex.CommandLine
