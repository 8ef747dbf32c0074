import DemandLex.StepFunction.Pairs
import DemandLex.Text.Lines
import DemandLex.Token

/-! Errors and how they are shown to a reader of the source. -/

namespace DemandLex

structure LexError where
  message : String
  position : Position
  deriving DecidableEq, Repr

namespace LexError

def ofToken? (t : Located) : Option LexError :=
  match t.token with
  | .unknownCharacter c => some ⟨"Unknown character " ++ Text.quoteChar c, t.position⟩
  | _ => none

def render (e : LexError) : String := e.message ++ " at " ++ e.position.render

def ofTokens (tokens : List Located) : List LexError := tokens.filterMap ofToken?

end LexError

inductive Diagnostic where
  | lexical (error : LexError)
  | interval (error : UnorderedEdges)

namespace Diagnostic

def render : Diagnostic → String
  | lexical e =>
    "Lexical error at line " ++ toString e.position.line ++ ", column " ++
      toString e.position.column ++ ": " ++ e.message
  | interval e => "Interval error: " ++ e.message

/-- A line number, right-aligned in four columns. -/
def lineNumber (n : Nat) : String :=
  let digits := toString n
  String.ofList (List.replicate (4 - digits.length) ' ') ++ digits

def indexedLines (source : String) : List (Nat × String) :=
  (Text.lines source.toList).mapIdx fun i content => (i, String.ofList content)

/-- A diagnostic with the line of the error and two lines on either side of it, as far as the source
has them, and a caret below the error. -/
def formatPlain (source : String) : Diagnostic → String
  | interval e => "\n" ++ (interval e).render ++ "\n"
  | lexical e =>
    let line := e.position.line
    let column := e.position.column
    let head := "\nLexical error at line " ++ toString line ++ ", column " ++ toString column ++
      ": " ++ e.message ++ "\n\n"
    let middle := line - 1
    let shown := ((indexedLines source).take (middle + 3)).drop (middle - 2)
    shown.foldl (fun text (i, content) =>
      if i = middle then
        text ++ " → " ++ lineNumber (i + 1) ++ " | " ++ content ++ "\n" ++ "        | " ++
          String.ofList (List.replicate (column - 1) ' ') ++ "^\n"
      else text ++ "   " ++ lineNumber (i + 1) ++ " | " ++ content ++ "\n") head

inductive Style where
  | red
  | boldRed
  | dimmed
  deriving DecidableEq, Repr

/-- The parameters of the sequences that switch the styles on. -/
def Palette := Style → List Nat

namespace Palette

def standard : Palette
  | .red => [31]
  | .boldRed => [1, 31]
  | .dimmed => [2]

def start (palette : Palette) (style : Style) : List Char :=
  '\x1b' :: '[' :: (";".intercalate ((palette style).map toString)).toList ++ ['m']

def reset : List Char := ['\x1b', '[', '0', 'm']

/-- Repeats the start of a style behind every reset that is already in the text. -/
def resume (start : List Char) : List Char → List Char
  | '\x1b' :: '[' :: '0' :: 'm' :: rest => reset ++ start ++ resume start rest
  | c :: rest => c :: resume start rest
  | [] => []

def paint (palette : Palette) (style : Style) (text : String) : String :=
  let start := palette.start style
  String.ofList (start ++ resume start text.toList ++ reset)

end Palette

def formatPainted (palette : Palette) (source : String) : Diagnostic → String
  | interval e => "\n" ++ palette.paint .boldRed (interval e).render ++ "\n"
  | lexical e =>
    let line := e.position.line
    let column := e.position.column
    let head := "\n" ++ palette.paint .boldRed ("Lexical error at line " ++ toString line ++
      ", column " ++ toString column) ++ ": " ++ palette.paint .red e.message ++ "\n\n"
    let middle := line - 1
    let shown := ((indexedLines source).take (middle + 3)).drop (middle - 2)
    shown.foldl (fun text (i, content) =>
      if i = middle then
        text ++ palette.paint .red (" → " ++ lineNumber (i + 1) ++ " | " ++ content ++ "\n") ++
          palette.paint .red "        | " ++ String.ofList (List.replicate (column - 1) ' ') ++
          palette.paint .boldRed "^" ++ "\n"
      else
        text ++ palette.paint .dimmed
          ("   " ++ lineNumber (i + 1) ++ " | " ++ content ++ "\n")) head

def formatColored (source : String) (d : Diagnostic) : String := formatPainted .standard source d

end Diagnostic

end DemandLex
