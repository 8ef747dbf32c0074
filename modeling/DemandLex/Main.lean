import DemandLex.CommandLine.Session

/-! The command line program. -/

namespace DemandLex.CommandLine

def play (level : Level) : Event → IO Unit
  | .out text => IO.print text
  | .err text => IO.eprint text
  | .log line => if line.isKept level then IO.eprintln line.render else pure ()

def playSession (level : Level) (s : Session) : IO UInt32 := do
  s.events.forM (play level)
  pure s.code.toUInt32

def readErrorOf : IO.Error → ReadError
  | .noFileOrDirectory .. => .notFound
  | .permissionDenied .. => .other "Permission denied (os error 13)"
  | .inappropriateType _ code _ => if code = 21 then .isDirectory else .notDirectory
  | e => .other (toString e)

partial def readAll (stream : IO.FS.Stream) (sofar : ByteArray) : IO ByteArray := do
  let more ← stream.read 65536
  if more.isEmpty then pure sofar else readAll stream (sofar ++ more)

def world : World IO where
  readFile path := do
    try
      let content ← IO.FS.readBinFile path
      pure (.ok content)
    catch e => pure (.error (readErrorOf e))
  readInput := do
    try
      let content ← readAll (← IO.getStdin) .empty
      pure (.ok content)
    catch e => pure (.error (readErrorOf e))

partial def readLine (stream : IO.FS.Stream) (sofar : ByteArray) : IO ByteArray := do
  let byte ← stream.read 1
  if byte.isEmpty || byte[0]? == some 10 then pure (sofar ++ byte)
  else readLine stream (sofar ++ byte)

partial def answerInput (level : Level) (t : Terminals) : IO UInt32 := do
  prompt.forM (play level)
  (← IO.getStdout).flush
  match inputLines (← readLine (← IO.getStdin) .empty) with
  | [] => playSession level goodbye
  | line :: _ =>
    match line with
    | .error e => playSession level (unreadableLine e)
    | .ok text => do
      (answerLine t text).forM (play level)
      answerInput level t

def start (arguments : List String) : IO UInt32 := do
  match Options.parse arguments with
  | .error refusal => playSession .error (refuse refusal)
  | .ok o => do
    let level := Level.choose (← IO.getEnv "LAZYLEX_LOG") o.verbosity
    let t : Terminals := ⟨← (← IO.getStdin).isTty, ← (← IO.getStderr).isTty⟩
    (profileWarning o).forM (play level)
    if o.repl then
      play level banner
      answerInput level t
    else
      let session ← runOptions world t o
      playSession level session

end DemandLex.CommandLine

def main (arguments : List String) : IO UInt32 := DemandLex.CommandLine.start arguments
