import DemandLex.CommandLine.Files
import DemandLex.CommandLine.Log
import DemandLex.CommandLine.Options
import DemandLex.Text.Blank

/-! What the program does: the text it writes, the lines it logs, and its exit code. -/

namespace DemandLex.CommandLine

inductive Event where
  | out (text : String)
  | err (text : String)
  | log (line : LogLine)
  deriving DecidableEq, Repr

structure Session where
  events : List Event
  code : Nat
  deriving DecidableEq, Repr

namespace Session

def stdout (s : Session) : String :=
  s.events.foldl (fun text e => match e with
    | .out more => text ++ more
    | _ => text) ""

/-- What is written beside the log. -/
def stderr (s : Session) : String :=
  s.events.foldl (fun text e => match e with
    | .err more => text ++ more
    | .log line => text ++ line.spill
    | .out _ => text) ""

def logs (s : Session) : List LogLine :=
  s.events.filterMap fun
    | .log line => some line
    | _ => none

def after (events : List Event) (s : Session) : Session := { s with events := events ++ s.events }

end Session

structure Terminals where
  input : Bool
  errors : Bool

def Terminals.none : Terminals := ⟨false, false⟩

/-- What a program can ask of its surroundings. -/
structure World (m : Type → Type) where
  readFile : String → m (Except ReadError ByteArray)
  readInput : m (Except ReadError ByteArray)

def log (level : Level) (message : String) (fields : List (String × String)) : Event :=
  .log ⟨level, message, fields⟩

def logTree (s : CharSet) : Event :=
  log .debug "built balanced interval map"
    [("leaves", toString s.tree.leafCount), ("depth", toString s.tree.depth)]

def logClasses : List Event := CharClasses.assembly.notes.map logTree

def diagnose (t : Terminals) (source : String) (e : LexError) : Event :=
  .err (if t.errors then Diagnostic.formatColored source (.lexical e)
    else Diagnostic.formatPlain source (.lexical e))

def logTokens (tokens : List Located) : List Event :=
  ((tokens.filter Located.isError).map fun t =>
    log .trace "error token" [("token", t.render)]) ++
  [log .debug "tokenized source"
    [("tokens", toString tokens.length), ("errors", toString (Report.errorCount tokens))]]

def writeTokens (mode : OutputMode) (tokens : List Located) : List Event :=
  match mode with
  | .text => [.out (Report.textLines tokens)]
  | .json => logTokens tokens ++ [.out ((Report.tokens tokens).compact ++ "\n")]
  | .jsonl => [.out (Report.jsonLines tokens)]

/-- Tokenizes a source. Only text output shows the errors to the reader, because the other modes
have them in their output. -/
def runSource (t : Terminals) (mode : OutputMode) (source : String) : Session :=
  let tokens := tokenize source
  let errors := LexError.ofTokens tokens
  let start := log .info "tokenizing"
    [("bytes", toString source.utf8ByteSize), ("mode", mode.name)]
  let shown := if mode = .text then errors.map (diagnose t source) else []
  let finish := if errors.isEmpty then []
    else shown ++ [log .info "input contains unknown characters"
      [("errors", toString errors.length)]]
  ⟨start :: logClasses ++ writeTokens mode tokens ++ finish, if errors.isEmpty then 0 else 3⟩

def banner : Event := .out "lazylex REPL. Each line is tokenized on its own; Ctrl-D exits.\n"

def prompt : List Event := [log .debug "unsupported terminal" [], .out ">> "]

/-- Answers one line; a blank line gets no answer. -/
def answerLine (t : Terminals) (line : String) : List Event :=
  if Text.isBlank line then []
  else logClasses ++ (tokenize line).flatMap fun token =>
    Event.out (token.render ++ "\n") :: ((LexError.ofToken? token).map (diagnose t line)).toList

def goodbye : Session := ⟨[.out "Goodbye!\n"], 0⟩

def unreadableLine (e : ReadError) : Session := ⟨[.err ("Error: " ++ e.message ++ "\n")], 1⟩

def answerLines (t : Terminals) : List (Except ReadError String) → Session
  | [] => goodbye.after prompt
  | .error e :: _ => (unreadableLine e).after prompt
  | .ok line :: rest => (answerLines t rest).after (prompt ++ answerLine t line)

def splitLines : List UInt8 → List UInt8 → List (List UInt8)
  | [], [] => []
  | current, [] => [current.reverse]
  | current, byte :: rest =>
    if byte = 10 then dropReturn current :: splitLines [] rest
    else splitLines (byte :: current) rest
where
  dropReturn : List UInt8 → List UInt8
    | 13 :: rest => rest.reverse
    | line => line.reverse

/-- The lines of an input: each loses its line feed and a carriage return before that. -/
def inputLines (input : ByteArray) : List (Except ReadError String) :=
  (splitLines [] input.toList).map fun line => decode ⟨line.toArray⟩

def runRepl (t : Terminals) (lines : List (Except ReadError String)) : Session :=
  (answerLines t lines).after [banner]

def help : List Event := helpLines.map fun line => .out (line ++ "\n")

def refuse : Refusal → Session
  | .help => ⟨help, 0⟩
  | r => ⟨[.err (r.message ++ "\n")], 1⟩

def profileWarning (o : Options) : List Event :=
  if o.profile then
    [log .warn "profiling requested but lazylex-cli was built without the profile feature" []]
  else []

section
variable {m : Type → Type} [Monad m]

/-- Finds the source: an argument before a file, and a file before the standard input. -/
def runOptions (world : World m) (t : Terminals) (o : Options) : m Session :=
  match o.inline, o.path with
  | some source, _ => pure (runSource t o.mode source)
  | none, some path => do
    match (← world.readFile path).bind decode with
    | .ok source =>
      pure ((runSource t o.mode source).after [log .debug "read source file" [("path", path)]])
    | .error e => pure ⟨[.err ("Error reading file '" ++ path ++ "': " ++ e.message ++ "\n")], 1⟩
  | none, none =>
    if t.input then pure ⟨help, 1⟩
    else do
      match (← world.readInput).bind decode with
      | .ok source => pure (runSource t o.mode source)
      | .error e => pure ⟨[.err ("Error reading from stdin: " ++ e.message ++ "\n")], 1⟩

end

def keepLevel (level : Level) (s : Session) : Session :=
  { s with events := s.events.filter fun
      | .log line => line.isKept level
      | _ => true }

/-- A whole run on given files and a given input, with no terminal anywhere. -/
def run (arguments : List String) (setting : Option String) (directory : Directory)
    (input : ByteArray) : Session :=
  match Options.parse arguments with
  | .error refusal => refuse refusal
  | .ok o =>
    let world : World Id := ⟨fun path => directory.read input path, .ok input⟩
    let session := if o.repl then runRepl .none (inputLines input)
      else (runOptions world .none o).run
    keepLevel (Level.choose setting o.verbosity) (session.after (profileWarning o))

end DemandLex.CommandLine
