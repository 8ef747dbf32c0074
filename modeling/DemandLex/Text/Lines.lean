/-! Lines of a text. -/

namespace DemandLex.Text

def dropReturn (line : List Char) : List Char :=
  match line.getLast? with
  | some '\x0d' => line.dropLast
  | _ => line

/-- Splits behind every line feed: the lines that ended with one, and the characters after the last
one, newest first. -/
def splitFeeds : List Char → List Char → List (List Char) × List Char
  | current, [] => ([], current)
  | current, '\n' :: rest =>
    let (lines, last) := splitFeeds [] rest
    (current.reverse :: lines, last)
  | current, c :: rest => splitFeeds (c :: current) rest

/-- The lines of a text without their line feeds and without a carriage return before one. A line
feed at the very end starts no further line. -/
def lines (text : List Char) : List (List Char) :=
  let (ended, last) := splitFeeds [] text
  ended.map dropReturn ++ if last.isEmpty then [] else [last.reverse]

end DemandLex.Text
