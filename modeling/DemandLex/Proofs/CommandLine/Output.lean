import DemandLex.Proofs.CommandLine.Repl
import DemandLex.Proofs.Text.OneLine

/-! The three output modes show the same tokens, each on a line of its own, and the same errors. -/

namespace DemandLex

def Json.field? (name : String) : Json → Option Json
  | .object fields => fields.lookup name
  | _ => none

/-- What is shown of a token: its kind and its value in a report, and the text on a line of its own. -/
inductive Token.Shown : Token → String → Json → String → Prop
  | terminal : Shown .terminal "terminal" .null "Terminal"
  | unknownCharacter (c : Char) : Shown (.unknownCharacter c) "unknown_character_error"
      (.string (String.ofList [c])) ("UnknownCharacterError(" ++ Text.quoteChar c ++ ")")
  | identifier (value : String) : Shown (.identifier value) "id" (.string value)
      ("Id(" ++ Text.quoteString value ++ ")")
  | number {x : Binary64} (finite : x.isFinite = true) : Shown (.number x) "float_number" (.float x)
      ("FloatNumber(" ++ x.toText ++ ")")
  | notFinite {x : Binary64} (large : x.isFinite = false) : Shown (.number x) "float_number"
      (.string x.toText) ("FloatNumber(" ++ x.toText ++ ")")
  | symbol (s : Symbol) : Shown (.symbol s) "symbol" (.string (String.ofList [s.toChar]))
      ("Symbol(" ++ String.ofList [s.toChar] ++ ")")
  | string (value : String) : Shown (.string value) "string" (.string value)
      ("String(" ++ Text.quoteString value ++ ")")

theorem Token.shown_render (t : Token) : t.Shown t.kind (Report.tokenValue t) t.render := by
  cases t with
  | number x =>
    rw [Report.tokenValue]
    split
    · next finite => exact .number finite
    · next large => exact .notFinite (Bool.eq_false_iff.mpr large)
  | _ => constructor

/-- An item of a report and a line of text that both show a token at its position. -/
def Located.ShownAs (t : Located) (item : Json) (line : String) : Prop :=
  ∃ kind value text, t.token.Shown kind value text ∧
    item = .object [("type", .string "token"), ("kind", .string kind), ("value", value),
      ("location", .object [("line", .nat t.position.line), ("column", .nat t.position.column)])] ∧
    line = text ++ " @ " ++ toString t.position.line ++ ":" ++ toString t.position.column

theorem Located.shownAs_render (t : Located) : t.ShownAs (Report.token t) t.render := by
  refine ⟨_, _, _, t.token.shown_render, rfl, ?_⟩
  rw [render, Position.render]
  simp only [String.append_assoc]

namespace Report

def outputLines (mode : OutputMode) (ts : List Located) : List String :=
  match mode with
  | .text => ts.map Located.render
  | .json => [(tokens ts).compact]
  | .jsonl => ts.map (fun t => (token t).compact) ++ [(summary ts).compact]

theorem foldl_lines {f : Located → String} (ts : List Located) (text : String) :
    ts.foldl (fun text t => text ++ f t ++ "\n") text = text ++ joinLines (ts.map f) := by
  induction ts generalizing text with
  | nil => simp [joinLines]
  | cons t later ih =>
    rw [List.foldl_cons, ih, List.map_cons, joinLines, joinLines, List.map_cons, String.join_cons]
    simp only [String.append_assoc]

theorem textLines_eq (ts : List Located) : textLines ts = joinLines (outputLines .text ts) := by
  rw [textLines, foldl_lines]
  simp [outputLines]

theorem jsonLines_eq (ts : List Located) : jsonLines ts = joinLines (outputLines .jsonl ts) := by
  rw [jsonLines, foldl_lines, outputLines, joinLines_append, joinLines_singleton]
  simp only [String.empty_append, String.append_assoc]

theorem oneLine_outputLines (mode : OutputMode) (ts : List Located) :
    ∀ line ∈ outputLines mode ts, Text.OneLine line := by
  cases mode with
  | text =>
    intro line member
    obtain ⟨t, -, rfl⟩ := List.mem_map.mp member
    exact oneLine_located t
  | json => exact List.forall_mem_singleton.mpr (Json.oneLine_compact _)
  | jsonl =>
    intro line member
    rcases List.mem_append.mp member with member | member
    · obtain ⟨t, -, rfl⟩ := List.mem_map.mp member
      exact Json.oneLine_compact _
    · rw [List.mem_singleton.mp member]
      exact Json.oneLine_compact _

end Report

theorem Located.isError_iff {t : Located} :
    t.isError = true ↔ ∃ c, t.token = .unknownCharacter c := by
  obtain ⟨token, position⟩ := t
  cases token <;> simp [Located.isError, Token.isError]

namespace LexError

theorem ofToken?_of_isError {t : Located} (fault : t.isError = true) :
    ∃ message, ofToken? t = some ⟨message, t.position⟩ := by
  obtain ⟨c, same⟩ := Located.isError_iff.mp fault
  exact ⟨_, by rw [ofToken?, same]⟩

theorem ofToken?_of_not_isError {t : Located} (sound : t.isError = false) : ofToken? t = none := by
  obtain ⟨token, position⟩ := t
  cases token with
  | unknownCharacter => cases sound
  | _ => rfl

theorem position_ofTokens (ts : List Located) :
    (ofTokens ts).map position = (ts.filter Located.isError).map Located.position := by
  induction ts with
  | nil => rfl
  | cons t later ih =>
    rw [ofTokens] at ih
    cases fault : t.isError with
    | true =>
      obtain ⟨message, found⟩ := ofToken?_of_isError fault
      rw [ofTokens, List.filterMap_cons_some found, List.filter_cons_of_pos fault, List.map_cons,
        List.map_cons, ih]
    | false =>
      rw [ofTokens, List.filterMap_cons_none (ofToken?_of_not_isError fault),
        List.filter_cons_of_neg (by simp [fault]), ih]

theorem length_ofTokens (ts : List Located) :
    (ofTokens ts).length = (ts.filter Located.isError).length := by
  simpa using congrArg List.length (position_ofTokens ts)

end LexError

namespace CommandLine

theorem Session.stdout_after (s : Session) (events : List Event) :
    (s.after events).stdout = String.join (events.map Event.shown) ++ s.stdout := by
  rw [stdout_eq, stdout_eq, after, List.map_append, String.join_append]

theorem shown_filter {keep : Event → Bool} (silent : ∀ e, keep e = false → e.shown = "")
    (events : List Event) :
    String.join ((events.filter keep).map Event.shown) = String.join (events.map Event.shown) := by
  induction events with
  | nil => rfl
  | cons e later ih =>
    cases kept : keep e with
    | true =>
      rw [List.filter_cons_of_pos kept, List.map_cons, List.map_cons, String.join_cons,
        String.join_cons, ih]
    | false =>
      rw [List.filter_cons_of_neg (by simp [kept]), List.map_cons, String.join_cons, silent e kept,
        String.empty_append, ih]

theorem stdout_keepLevel (level : Level) (s : Session) : (keepLevel level s).stdout = s.stdout := by
  rw [Session.stdout_eq, Session.stdout_eq]
  apply shown_filter
  intro e dropped
  cases e with
  | log line => rfl
  | out text | err text => cases dropped

theorem shown_silent {α : Type} {f : α → Event} (silent : ∀ value, (f value).shown = "")
    (values : List α) : String.join ((values.map f).map Event.shown) = "" := by
  induction values with
  | nil => rfl
  | cons value later ih => rw [List.map_cons, List.map_cons, String.join_cons, silent, ih]; rfl

theorem shown_logTokens (ts : List Located) : String.join ((logTokens ts).map Event.shown) = "" := by
  rw [logTokens, List.map_append, String.join_append, shown_silent fun _ => rfl]
  rfl

theorem shown_writeTokens (mode : OutputMode) (ts : List Located) :
    String.join ((writeTokens mode ts).map Event.shown) =
      Report.joinLines (Report.outputLines mode ts) := by
  cases mode with
  | text => simp [writeTokens, Event.shown, Report.textLines_eq]
  | jsonl => simp [writeTokens, Event.shown, Report.jsonLines_eq]
  | json =>
    rw [writeTokens, List.map_append, String.join_append, shown_logTokens]
    simp [Event.shown, Report.outputLines, Report.joinLines]

/-- The output is the lines of the tokens; what goes to the log and to the reader of the errors is
not in it. -/
theorem stdout_runSource (t : Terminals) (mode : OutputMode) (source : String) :
    (runSource t mode source).stdout =
      Report.joinLines (Report.outputLines mode (tokenize source)) := by
  rw [Session.stdout_eq, runSource]
  simp only [List.cons_append, List.map_cons, List.map_append, String.join_cons,
    String.join_append, shown_logClasses, shown_writeTokens]
  have errors : String.join ((if (LexError.ofTokens (tokenize source)).isEmpty then []
      else (if mode = .text then (LexError.ofTokens (tokenize source)).map (diagnose t source)
        else []) ++ [log .info "input contains unknown characters"
          [("errors", toString (LexError.ofTokens (tokenize source)).length)]]).map Event.shown) =
      "" := by
    split_ifs
    · rfl
    · rw [List.map_append, String.join_append, shown_silent fun _ => rfl]
      rfl
    · rfl
  rw [errors]
  simp [Event.shown, log]

theorem code_runSource (t : Terminals) (mode : OutputMode) (source : String) :
    (runSource t mode source).code =
      if ((tokenize source).filter Located.isError).length = 0 then 0 else 3 := by
  rw [runSource, ← LexError.length_ofTokens]
  simp only [List.isEmpty_iff_length_eq_zero]

/-- The source that a run finds: an argument before a file, and a file before the standard input. -/
def Options.source (o : Options) (directory : Directory) (input : ByteArray) :
    Except ReadError String :=
  match o.inline, o.path with
  | some source, _ => .ok source
  | none, some path => (directory.read input path).bind decode
  | none, none => decode input

theorem Session.after_nil (s : Session) : s.after [] = s := rfl

theorem runOptions_of_source (world : World Id) {o : Options} {directory : Directory}
    {input : ByteArray} {source : String}
    (files : ∀ path, world.readFile path = directory.read input path)
    (standard : world.readInput = .ok input) (found : o.source directory input = .ok source) :
    ∃ before : List LogLine, (runOptions world .none o).run =
      (runSource .none o.mode source).after (before.map .log) := by
  rw [Options.source] at found
  rw [runOptions]
  cases inline : o.inline with
  | some given =>
    rw [inline] at found
    cases found
    exact ⟨[], rfl⟩
  | none =>
    cases named : o.path with
    | some path =>
      simp only [inline, named] at found
      refine ⟨[⟨.debug, "read source file", [("path", path)]⟩], ?_⟩
      have read : (world.readFile path).bind decode = .ok source := by rw [files, found]
      simp [read, log, bind, pure, Id.run]
    | none =>
      simp only [inline, named] at found
      refine ⟨[], ?_⟩
      have read : (world.readInput : Except ReadError ByteArray).bind decode = .ok source := by
        rw [standard]
        exact found
      simp [read, Terminals.none, bind, pure, Id.run, Session.after_nil]

/-- A run that finds a source writes what tokenizing it in the mode chosen writes, and ends as that
does. -/
theorem run_of_source {arguments : List String} (setting : Option String)
    {directory : Directory} {input : ByteArray} {o : Options} {source : String}
    (parsed : Options.parse arguments = .ok o) (once : o.repl = false)
    (found : o.source directory input = .ok source) :
    (run arguments setting directory input).stdout = (runSource .none o.mode source).stdout ∧
      (run arguments setting directory input).code = (runSource .none o.mode source).code := by
  let world : World Id := ⟨fun path => directory.read input path, .ok input⟩
  obtain ⟨before, session⟩ := runOptions_of_source world (fun _ => rfl) rfl found
  have ran : run arguments setting directory input = keepLevel (Level.choose setting o.verbosity)
      (((runSource .none o.mode source).after (before.map .log)).after (profileWarning o)) := by
    rw [run, parsed, ← session]
    simp only [once, Bool.false_eq_true, if_false]
    rfl
  have warned : String.join ((profileWarning o).map Event.shown) = "" := by
    rw [profileWarning]
    split <;> rfl
  rw [ran]
  refine ⟨?_, rfl⟩
  rw [stdout_keepLevel, Session.stdout_after, Session.stdout_after, warned,
    shown_silent fun _ => rfl, String.empty_append, String.empty_append]

/-- In every output mode a run on a source shows its tokens: as one line of text for each, as one JSON
text for all, or as one JSON text on a line for each and one for the summary. No line is broken by a
value. The lines are the items of the one JSON text, and token by token an item has the kind, the value
and the position that the line of text shows. Both summaries count the tokens and the errors that are in
them. The exit code says whether there are errors. -/
theorem output_modes_agree (source : String) :
    let ts := tokenize source
    let faults := ts.filter Located.isError
    (∀ t : Located, t.isError = true ↔ ∃ c, t.token = .unknownCharacter c) ∧
    (∀ (t : Terminals) (mode : OutputMode),
      (runSource t mode source).stdout = Report.joinLines (Report.outputLines mode ts) ∧
      (runSource t mode source).code = if faults.length = 0 then 0 else 3) ∧
    (∀ (arguments : List String) (setting : Option String) (directory : Directory)
      (input : ByteArray) (o : Options), Options.parse arguments = .ok o → o.repl = false →
      o.source directory input = .ok source →
      (run arguments setting directory input).stdout =
        Report.joinLines (Report.outputLines o.mode ts) ∧
      (run arguments setting directory input).code = if faults.length = 0 then 0 else 3) ∧
    (∀ mode, ∀ line ∈ Report.outputLines mode ts, Text.OneLine line) ∧
    ∃ (document summary : Json) (items errors : List Json),
      Report.outputLines .text ts = ts.map Located.render ∧
      Report.outputLines .json ts = [document.compact] ∧
      Report.outputLines .jsonl ts = items.map Json.compact ++ [summary.compact] ∧
      items = ts.map Report.token ∧
      (∀ (i : Nat) (t : Located), ts[i]? = some t → ∃ item line, items[i]? = some item ∧
        (Report.outputLines .text ts)[i]? = some line ∧
        (Report.outputLines .jsonl ts)[i]? = some item.compact ∧ t.ShownAs item line) ∧
      document.field? "tokens" = some (.array items) ∧
      document.field? "errors" = some (.array errors) ∧ errors.length = faults.length ∧
      errors.map (Json.field? "location") =
        faults.map (fun t => some (Report.location t.position)) ∧
      ∀ j ∈ [document, summary],
        j.field? "success" = some (.bool (decide (faults.length = 0))) ∧
        ∃ counts, j.field? "summary" = some counts ∧
          counts.field? "total" = some (.nat ts.length) ∧
          counts.field? "errors" = some (.nat faults.length) := by
  intro ts faults
  have errors : Report.errorCount ts = faults.length := List.countP_eq_length_filter
  refine ⟨fun t => Located.isError_iff,
    fun t mode => ⟨stdout_runSource t mode source, code_runSource t mode source⟩, ?_,
    fun mode => Report.oneLine_outputLines mode ts, Report.tokens ts, Report.summary ts,
    ts.map Report.token, (LexError.ofTokens ts).map fun e => Report.error (.lexical e), rfl, rfl, ?_,
    rfl, ?_, rfl, rfl, ?_, ?_, ?_⟩
  · intro arguments setting directory input o parsed once found
    obtain ⟨output, code⟩ := run_of_source setting parsed once found
    rw [output, code]
    exact ⟨stdout_runSource .none o.mode source, code_runSource .none o.mode source⟩
  · rw [List.map_map]
    rfl
  · intro i t found
    have inside : i < ts.length := (List.getElem?_eq_some_iff.mp found).1
    refine ⟨Report.token t, t.render, ?_, ?_, ?_, t.shownAs_render⟩
    · rw [List.getElem?_map, found, Option.map_some]
    · rw [Report.outputLines, List.getElem?_map, found, Option.map_some]
    · rw [Report.outputLines, List.getElem?_append_left (by rwa [List.length_map]),
        List.getElem?_map, found, Option.map_some]
  · rw [List.length_map, LexError.length_ofTokens]
  · have places := congrArg (List.map fun p => some (Report.location p))
      (LexError.position_ofTokens ts)
    rw [List.map_map, List.map_map] at places
    rw [List.map_map]
    exact places
  · rw [← errors]
    exact List.forall_mem_cons.mpr
      ⟨⟨rfl, _, rfl, rfl, rfl⟩, List.forall_mem_singleton.mpr ⟨rfl, _, rfl, rfl, rfl⟩⟩

/-- A string of a line feed, and a character that starts no token; the log is asked for in full. -/
theorem output_modes_agree_unknown :
    let source := "\"\\n\"#"
    let session (mode : String) := run ["-vvv", "-o", mode, "-e", source] none ⟨[]⟩ .empty
    (session "text").stdout =
      "String(\"\\n\") @ 1:1\nUnknownCharacterError('#') @ 1:5\nTerminal @ 1:6\n" ∧
    (session "jsonl").stdout =
      "\x7b\"type\":\"token\",\"kind\":\"string\",\"value\":\"\\n\"," ++
        "\"location\":\x7b\"line\":1,\"column\":1\x7d\x7d\n" ++
      "\x7b\"type\":\"token\",\"kind\":\"unknown_character_error\",\"value\":\"#\"," ++
        "\"location\":\x7b\"line\":1,\"column\":5\x7d\x7d\n" ++
      "\x7b\"type\":\"token\",\"kind\":\"terminal\",\"value\":null," ++
        "\"location\":\x7b\"line\":1,\"column\":6\x7d\x7d\n" ++
      "\x7b\"type\":\"summary\",\"success\":false," ++
        "\"summary\":\x7b\"total\":3,\"errors\":1\x7d\x7d\n" ∧
    (session "json").code = 3 := by
  intro source session
  obtain ⟨-, -, runs, -, -⟩ := output_modes_agree source
  have parsed : ∀ mode ∈ [("text", OutputMode.text), ("json", .json), ("jsonl", .jsonl)],
      Options.parse ["-vvv", "-o", mode.1, "-e", source] =
        .ok ⟨3, mode.2, false, false, some source, none⟩ := by decide +kernel
  have text := (runs _ none ⟨[]⟩ .empty _ (parsed ("text", .text) (by simp)) rfl rfl).1
  have jsonl := (runs _ none ⟨[]⟩ .empty _ (parsed ("jsonl", .jsonl) (by simp)) rfl rfl).1
  have code := (runs _ none ⟨[]⟩ .empty _ (parsed ("json", .json) (by simp)) rfl rfl).2
  have one : ((tokenize source).filter Located.isError).length = 1 := by decide +kernel
  rw [one] at code
  exact ⟨text.trans (by decide +kernel), jsonl.trans (by decide +kernel), code⟩

end CommandLine

end DemandLex
