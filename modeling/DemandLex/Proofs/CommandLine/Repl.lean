import DemandLex.CommandLine.Session
import DemandLex.Proofs.Lexer.Lines

/-! The interactive session answers every line with the tokens of that line alone, and these are the
tokens of the lines of one text, up to the line numbers. -/

namespace DemandLex

namespace CommandLine

def Event.shown : Event → String
  | .out text => text
  | .err _ | .log _ => ""

theorem Session.stdout_eq (s : Session) : s.stdout = String.join (s.events.map Event.shown) := by
  rw [stdout, String.join_eq_foldl, List.foldl_map]
  congr 1
  funext text e
  cases e <;> simp [Event.shown]

def answer (line : String) : String :=
  if Text.isBlank line then ""
  else String.join ((tokenize line).map fun t => t.render ++ "\n")

theorem shown_logClasses : String.join (logClasses.map Event.shown) = "" := by
  rw [logClasses, List.map_map]
  induction CharClasses.assembly.notes with
  | nil => rfl
  | cons s later ih => rw [List.map_cons, String.join_cons, ih]; rfl

theorem shown_answerLine (t : Terminals) (line : String) :
    String.join ((answerLine t line).map Event.shown) = answer line := by
  rw [answerLine, answer]
  split
  · rfl
  · rw [List.map_append, String.join_append, shown_logClasses, String.empty_append]
    induction tokenize line with
    | nil => rfl
    | cons token later ih =>
      have here : String.join ((Event.out (token.render ++ "\n") ::
          ((LexError.ofToken? token).map (diagnose t line)).toList).map Event.shown) =
            token.render ++ "\n" := by
        cases LexError.ofToken? token <;> simp [Event.shown, diagnose]
      rw [List.flatMap_cons, List.map_append, String.join_append, ih, here, List.map_cons,
        String.join_cons]

theorem shown_answerLines (t : Terminals) (lines : List String) :
    String.join ((answerLines t (lines.map .ok)).events.map Event.shown) =
      String.join (lines.map fun line => ">> " ++ answer line) ++ ">> Goodbye!\n" := by
  have asks : String.join (prompt.map Event.shown) = ">> " := by decide +kernel
  induction lines with
  | nil =>
    have last : String.join ((goodbye.after prompt).events.map Event.shown) =
        String.join [] ++ ">> Goodbye!\n" := by decide +kernel
    exact last
  | cons line later ih =>
    rw [List.map_cons, answerLines, Session.after, List.map_append, List.map_append,
      String.join_append, String.join_append, asks, shown_answerLine, ih, List.map_cons,
      String.join_cons]
    simp only [String.append_assoc]

end CommandLine

open CommandLine

/-- A line feed ends every token, and the text behind it is tokenized as if it stood alone, further
down. So a text has the tokens of its lines, and the interactive session, which tokenizes each line
on its own, shows these for the lines that are not blank. -/
theorem tokenize_by_lines :
    (∀ a b : String, tokenize (a ++ "\n" ++ b) =
      (tokenize a).dropLast ++ (tokenize b).map (Located.below (1 + a.toList.count '\n'))) ∧
    (∀ source : String, tokenize source = lineTokens 0 (source.toList.splitOn '\n')) ∧
    ∀ (t : Terminals) (lines : List String),
      (runRepl t (lines.map .ok)).stdout =
        banner.shown ++ String.join (lines.map fun line => ">> " ++ answer line) ++
          ">> Goodbye!\n" := by
  refine ⟨?_, ?_, ?_⟩
  · intro a b
    have parts : a ++ "\n" ++ b = String.ofList (a.toList ++ '\n' :: b.toList) := by
      rw [← String.toList_inj]
      simp
    rw [parts, tokenize_feed, String.ofList_toList, String.ofList_toList]
  · intro source
    have whole := tokenize_below 0 source.toList
    rw [String.ofList_toList] at whole
    rw [← whole]
    exact (List.map_id _).symm
  · intro t lines
    rw [Session.stdout_eq, runRepl, Session.after, List.map_append, String.join_append,
      shown_answerLines, String.append_assoc]
    simp

end DemandLex
