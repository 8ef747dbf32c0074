import DemandLex.Report

/-! What the arguments of the command line ask for. -/

namespace DemandLex.CommandLine

structure Options where
  /-- How often more logging was asked for, at most 255 times. -/
  verbosity : Nat
  mode : OutputMode
  repl : Bool
  profile : Bool
  inline : Option String
  path : Option String
  deriving DecidableEq, Repr

/-- Arguments that end the program at once. -/
inductive Refusal where
  | help
  | noSource
  | noMode
  | unknownOption (argument : String)
  deriving DecidableEq, Repr

namespace Refusal

def message : Refusal → String
  | help => ""
  | noSource => "Error: -e requires a source argument"
  | noMode => "Error: -o requires one of text, json, jsonl"
  | unknownOption argument => "Unknown option: " ++ argument

end Refusal

namespace Options

def initial : Options := ⟨0, .text, false, false, none, none⟩

def louder (o : Options) (more : Nat) : Options :=
  { o with verbosity := min 255 (o.verbosity + more) }

def loudness? (argument : String) : Option Nat :=
  match argument.toList with
  | '-' :: c :: rest => if (c :: rest).all (· == 'v') then some (rest.length + 1) else none
  | _ => none

/-- Reads the arguments in order; the last one of a kind counts. The letters of one argument are
counted modulo 256. -/
def read (o : Options) : List String → Except Refusal Options
  | [] => .ok o
  | argument :: rest =>
    if argument = "-h" ∨ argument = "--help" then .error .help
    else if argument = "-r" ∨ argument = "--repl" then read { o with repl := true } rest
    else if argument = "-p" ∨ argument = "--profile" then read { o with profile := true } rest
    else if argument = "-e" ∨ argument = "--eval" then
      match rest with
      | source :: rest => read { o with inline := some source } rest
      | [] => .error .noSource
    else if argument = "-o" ∨ argument = "--output" then
      match rest with
      | name :: rest =>
        match OutputMode.ofName? name with
        | some mode => read { o with mode := mode } rest
        | none => .error .noMode
      | [] => .error .noMode
    else if argument = "--verbose" then read (o.louder 1) rest
    else match loudness? argument with
      | some letters => read (o.louder (letters % 256)) rest
      | none =>
        if argument.toList.head? = some '-' then .error (.unknownOption argument)
        else read { o with path := some argument } rest

def parse (arguments : List String) : Except Refusal Options := read initial arguments

end Options

def helpLines : List String := [
  "lazylex - lazy JSON-like tokenizer",
  "",
  "USAGE:",
  "    lazylex-cli <FILE>          Tokenize a file",
  "    lazylex-cli -e <SOURCE>     Tokenize inline source",
  "    lazylex-cli -r              Start REPL",
  "    lazylex-cli -p <FILE>       Tokenize with CPU profiling (requires --features profile)",
  "    lazylex-cli -h              Show this help",
  "    cat file | lazylex-cli      Read source from stdin",
  "",
  "OPTIONS:",
  "    -e, --eval                  Tokenize inline source",
  "    -o, --output <MODE>         Output mode: text (default), json, jsonl",
  "    -v, --verbose               Log more; repeat for debug and trace",
  "    -p, --profile               Enable CPU profiling (outputs flamegraph.svg)",
  "",
  "ENVIRONMENT:",
  "    LAZYLEX_LOG                 Log level (error, warn, info, debug, trace)",
  "",
  "EXIT CODES:",
  "    0  all input tokenized",
  "    1  usage or I/O error",
  "    3  the input contains unknown characters"]

end DemandLex.CommandLine
