import DemandLex.Diagnostic
import DemandLex.Proofs.Decimal.NumeralText

/-! Erasing the sequences that set the style of what follows. A coloured diagnostic and a plain one
are the same text without them, whatever sequences the source and the message have of their own. -/

namespace DemandLex.Diagnostic

namespace Palette

/-- What may stand between the opening of a sequence and the letter that ends it. -/
def isParameter (c : Char) : Bool := Decimal.isDigit c || c == ';' || c == ':'

/-- The text behind a sequence that sets a style, if the text begins with one: the escape character,
a bracket, parameters and the letter `m`. -/
def behindSequence? : List Char → Option (List Char)
  | '\x1b' :: '[' :: rest =>
    match rest.dropWhile isParameter with
    | 'm' :: later => some later
    | _ => none
  | _ => none

theorem length_behindSequence? {text later : List Char}
    (found : behindSequence? text = some later) : later.length < text.length := by
  rw [behindSequence?.eq_def] at found
  split at found
  · next rest =>
    split at found
    · next last shape =>
      obtain rfl := Option.some.inj found
      have shorter := (List.dropWhile_suffix isParameter (l := rest)).length_le
      rw [shape, List.length_cons] at shorter
      simp only [List.length_cons]
      omega
    · cases found
  · cases found

def erase : List Char → List Char
  | [] => []
  | c :: rest =>
    match _ : behindSequence? (c :: rest) with
    | some later => erase later
    | none => c :: erase rest
termination_by text => text.length
decreasing_by
  · exact length_behindSequence? ‹_›
  · exact Nat.lt_succ_self _

def unstyled (text : String) : String := String.ofList (erase text.toList)

section Erase
variable {c : Char} {rest later : List Char}

theorem erase_nil : erase [] = [] := by rw [erase]

theorem erase_sequence {text : List Char} (found : behindSequence? text = some later) :
    erase text = erase later := by
  cases text with
  | nil => cases found
  | cons c rest =>
    rw [erase]
    split
    · next found' => rw [Option.some.inj (found.symm.trans found')]
    · next absent => cases found.symm.trans absent

theorem erase_kept (absent : behindSequence? (c :: rest) = none) :
    erase (c :: rest) = c :: erase rest := by
  rw [erase]
  split
  · next found => cases absent.symm.trans found
  · rfl

theorem behindSequence?_of_ne (plain : c ≠ '\x1b') : behindSequence? (c :: rest) = none := by
  rw [behindSequence?.eq_def]
  split
  · next shape => exact absurd (List.cons.inj shape).1 plain
  · rfl

theorem erase_cons (plain : c ≠ '\x1b') : erase (c :: rest) = c :: erase rest :=
  erase_kept (behindSequence?_of_ne plain)

theorem erase_reset : erase (reset ++ later) = erase later := erase_sequence rfl

theorem isParameter_of_mem_intercalate (numbers : List Nat) :
    ∀ c ∈ (";".intercalate (numbers.map toString)).toList, isParameter c = true := by
  have digits (n : Nat) : ∀ c ∈ (toString n).toList, isParameter c = true := by
    intro c member
    rw [isParameter, Decimal.isDigit_of_mem_toString n c member]
    rfl
  induction numbers with
  | nil => simp
  | cons n more ih =>
    cases more with
    | nil => simpa using digits n
    | cons m more =>
      rw [List.map_cons, List.map_cons, String.intercalate_cons_cons, ← List.map_cons]
      intro c member
      rw [String.toList_append, String.toList_append, List.mem_append, List.mem_append] at member
      rcases member with (first | semicolon) | others
      · exact digits n c first
      · obtain rfl := List.mem_singleton.mp semicolon
        rfl
      · exact ih c others

theorem erase_start (palette : Palette) (style : Style) :
    erase (palette.start style ++ later) = erase later := by
  apply erase_sequence
  have inside := isParameter_of_mem_intercalate (palette style)
  have stops : ¬isParameter 'm' = true := by decide
  simp only [start, List.cons_append, List.append_assoc, behindSequence?,
    List.dropWhile_append_of_pos inside, List.dropWhile_cons_of_neg stops, List.nil_append]

end Erase

section Resume
variable (start : List Char) {c : Char} {rest : List Char}

theorem resume_cons (plain : c ≠ '\x1b') : resume start (c :: rest) = c :: resume start rest := by
  rw [resume.eq_def]
  split
  · next shape => exact absurd (List.cons.inj shape).1 plain
  · next shape =>
    obtain ⟨rfl, rfl⟩ := List.cons.inj shape
    rfl
  · next shape => cases shape

theorem exists_resume (c : Char) (rest : List Char) :
    ∃ later, resume start (c :: rest) = c :: later := by
  rw [resume.eq_def]
  split
  · next shape =>
    obtain ⟨rfl, -⟩ := List.cons.inj shape
    exact ⟨_, rfl⟩
  · next shape =>
    obtain ⟨rfl, -⟩ := List.cons.inj shape
    exact ⟨_, rfl⟩
  · next shape => cases shape

theorem dropWhile_resume (text : List Char) :
    (resume start text).dropWhile isParameter = resume start (text.dropWhile isParameter) := by
  induction text with
  | nil => rfl
  | cons c rest ih =>
    by_cases inside : isParameter c = true
    · have plain : c ≠ '\x1b' := by
        rintro rfl
        exact absurd inside (by decide)
      rw [resume_cons start plain, List.dropWhile_cons_of_pos inside,
        List.dropWhile_cons_of_pos inside, ih]
    · obtain ⟨later, same⟩ := exists_resume start c rest
      rw [List.dropWhile_cons_of_neg inside, same, List.dropWhile_cons_of_neg inside]

/-- Resuming the style inside a text does not open or close a sequence in front. -/
theorem behindSequence?_resume (text : List Char) :
    behindSequence? ('\x1b' :: resume start text) =
      (behindSequence? ('\x1b' :: text)).map (resume start) := by
  cases text with
  | nil => rfl
  | cons c rest =>
    by_cases opens : c = '['
    · subst opens
      rw [resume_cons start (by decide)]
      simp only [behindSequence?, dropWhile_resume]
      cases rest.dropWhile isParameter with
      | nil => rfl
      | cons d later =>
        by_cases ends : d = 'm'
        · subst ends
          rw [resume_cons start (by decide)]
          rfl
        · obtain ⟨later', same⟩ := exists_resume start d later
          rw [same]
          simp [ends]
    · obtain ⟨later, same⟩ := exists_resume start c rest
      rw [same]
      simp [behindSequence?, opens]

theorem resume_cases (c : Char) (rest : List Char) :
    (∃ later, c :: rest = reset ++ later ∧
      resume start (c :: rest) = reset ++ (start ++ resume start later)) ∨
    resume start (c :: rest) = c :: resume start rest := by
  rw [resume.eq_def]
  split
  · next later shape => exact Or.inl ⟨later, shape, List.append_assoc ..⟩
  · next shape =>
    obtain ⟨rfl, rfl⟩ := List.cons.inj shape
    exact Or.inr rfl
  · next shape => cases shape

theorem erase_resume (opens : ∀ later, erase (start ++ later) = erase later) (text : List Char) :
    erase (resume start text) = erase text := by
  -- What is put in behind a reset is a sequence of its own, and is erased with it.
  fun_induction erase text with
  | case1 => exact erase_nil
  | case2 c rest later found ih =>
    rcases resume_cases start c rest with ⟨behind, shape, resumed⟩ | kept
    · rw [shape] at found
      obtain rfl : behind = later := Option.some.inj found
      rw [resumed, erase_reset, opens, ih]
    · by_cases escape : c = '\x1b'
      · subst escape
        have moved := behindSequence?_resume start rest
        rw [found] at moved
        rw [kept, erase_sequence moved, ih]
      · cases (behindSequence?_of_ne escape).symm.trans found
  | case3 c rest absent ih =>
    rcases resume_cases start c rest with ⟨behind, shape, -⟩ | kept
    · rw [shape] at absent
      cases absent
    · rw [kept]
      by_cases escape : c = '\x1b'
      · subst escape
        have moved := behindSequence?_resume start rest
        rw [absent] at moved
        rw [erase_kept moved, ih]
      · rw [erase_cons escape, ih]

end Resume

section Append

def Breaks (c : Char) : Prop := c ≠ '[' ∧ c ≠ 'm' ∧ isParameter c = false

variable {later : List Char} (breaks : ∀ c ∈ later.head?, Breaks c)

include breaks

theorem dropWhile_append_breaks (front : List Char) :
    (front ++ later).dropWhile isParameter = front.dropWhile isParameter ++ later := by
  rw [List.dropWhile_append]
  split
  · next all =>
    rw [List.isEmpty_iff.mp all, List.nil_append]
    cases later with
    | nil => rfl
    | cons c rest => exact List.dropWhile_cons_of_neg (by simp [(breaks c rfl).2.2])
  · rfl

theorem behindSequence?_append (c : Char) (front : List Char) :
    behindSequence? (c :: front ++ later) = (behindSequence? (c :: front)).map (· ++ later) := by
  -- A character that breaks cannot go on with a sequence, so none that the front leaves open closes.
  by_cases escape : c = '\x1b'
  · subst escape
    cases front with
    | nil =>
      cases later with
      | nil => rfl
      | cons d rest => simp [behindSequence?, (breaks d rfl).1]
    | cons d rest =>
      by_cases opens : d = '['
      · subst opens
        simp only [List.cons_append, behindSequence?, dropWhile_append_breaks breaks]
        cases rest.dropWhile isParameter with
        | nil =>
          cases later with
          | nil => rfl
          | cons e behind => simp [(breaks e rfl).2.1]
        | cons e behind =>
          by_cases ends : e = 'm'
          · subst ends
            rfl
          · simp [ends]
      · simp [behindSequence?, opens]
  · rw [List.cons_append, behindSequence?_of_ne escape, behindSequence?_of_ne escape]
    rfl

theorem erase_append_breaks (front : List Char) :
    erase (front ++ later) = erase front ++ erase later := by
  fun_induction erase front with
  | case1 => rfl
  | case2 c rest behind found ih =>
    have longer := behindSequence?_append breaks c rest
    rw [found] at longer
    rw [erase_sequence longer, ih]
  | case3 c rest absent ih =>
    have longer := behindSequence?_append breaks c rest
    rw [absent] at longer
    rw [List.cons_append] at longer
    rw [List.cons_append, erase_kept longer, ih, List.cons_append]

end Append

/-- No sequence that begins in the text goes on behind it. -/
def Closed (text : List Char) : Prop :=
  ∀ later, erase (text ++ later) = erase text ++ erase later

theorem closed_of_notMem {text : List Char} (plain : '\x1b' ∉ text) : Closed text := by
  intro later
  induction text with
  | nil => rw [erase_nil, List.nil_append, List.nil_append]
  | cons c rest ih =>
    obtain ⟨first, others⟩ := not_or.mp (mt List.mem_cons.mpr plain)
    rw [List.cons_append, erase_cons (Ne.symm first), erase_cons (Ne.symm first), ih others,
      List.cons_append]

theorem erase_line (text later : List Char) :
    erase (text ++ '\n' :: later) = erase text ++ '\n' :: erase later := by
  have breaks : ∀ c ∈ ('\n' :: later).head?, Breaks c := by
    rintro _ ⟨⟩
    exact ⟨by decide, by decide, by decide⟩
  rw [erase_append_breaks breaks, erase_cons (by decide)]

theorem toList_line (text : String) : (text ++ "\n").toList = text.toList ++ ['\n'] :=
  String.toList_append

theorem closed_line (text : String) : Closed (text ++ "\n").toList := by
  intro later
  rw [toList_line, List.append_assoc, List.singleton_append, erase_line, erase_line, erase_nil,
    List.append_assoc, List.singleton_append]

section Painted
variable (palette : Palette) (style : Style) (text : String)

theorem toList_paint : (palette.paint style text).toList =
    palette.start style ++ (resume (palette.start style) text.toList ++ reset) := by
  rw [paint, String.toList_ofList, List.append_assoc]

theorem erase_paint_append (later : List Char) :
    erase ((palette.paint style text).toList ++ later) = erase text.toList ++ erase later := by
  have breaks : ∀ c ∈ (reset ++ later).head?, Breaks c := by
    rintro _ ⟨⟩
    exact ⟨by decide, by decide, by decide⟩
  rw [toList_paint, List.append_assoc, erase_start, List.append_assoc, erase_append_breaks breaks,
    erase_resume _ fun _ => erase_start palette style, erase_reset]

end Painted

/-- Two texts that are the same without their styles, also in front of others that are. -/
def Alike (left right : String) : Prop :=
  ∀ later later', erase later = erase later' →
    erase (left.toList ++ later) = erase (right.toList ++ later')

namespace Alike
variable {left right left' right' : String}

theorem append (first : Alike left right) (second : Alike left' right') :
    Alike (left ++ left') (right ++ right') := by
  intro later later' same
  rw [String.toList_append, String.toList_append, List.append_assoc, List.append_assoc]
  exact first _ _ (second _ _ same)

theorem of_closed {text : String} (closed : Closed text.toList) : Alike text text := by
  intro later later' same
  rw [closed, closed, same]

theorem paint {text : String} (palette : Palette) (style : Style) (closed : Closed text.toList) :
    Alike (palette.paint style text) text := by
  intro later later' same
  rw [erase_paint_append, closed, same]

theorem paint_line (palette : Palette) (style : Style) (text : String) :
    Alike (palette.paint style text ++ "\n") (text ++ "\n") := by
  intro later later' same
  rw [toList_line, toList_line, List.append_assoc, List.append_assoc, erase_paint_append,
    List.singleton_append, List.singleton_append, erase_line, erase_cons (by decide), same]

theorem unstyled_eq (alike : Alike left right) : unstyled left = unstyled right := by
  have same := alike [] [] rfl
  rw [List.append_nil, List.append_nil] at same
  rw [unstyled, unstyled, same]

end Alike

end Palette

section Layout
variable (palette : Palette)

open Palette

theorem escape_notMem_nat (n : Nat) : '\x1b' ∉ (toString n).toList := by
  intro member
  have digit : Decimal.isDigit '\x1b' = true := Decimal.isDigit_of_mem_toString n _ member
  exact absurd digit (by decide)

theorem closed_headline (p : Position) : Closed ("Lexical error at line " ++ toString p.line ++
    ", column " ++ toString p.column).toList := by
  refine closed_of_notMem ?_
  simp only [String.toList_append, List.mem_append, escape_notMem_nat, or_false]
  decide

theorem closed_spaces (count : Nat) : Closed (String.ofList (List.replicate count ' ')).toList := by
  refine closed_of_notMem ?_
  rw [String.toList_ofList, List.mem_replicate]
  exact fun found => absurd found.2 (by decide)

theorem alike_feed : Alike "\n" "\n" := .of_closed (closed_of_notMem (by decide))

theorem alike_head (e : LexError) :
    Alike
      ("\n" ++ palette.paint .boldRed ("Lexical error at line " ++ toString e.position.line ++
        ", column " ++ toString e.position.column) ++ ": " ++ palette.paint .red e.message ++ "\n\n")
      ("\nLexical error at line " ++ toString e.position.line ++ ", column " ++
        toString e.position.column ++ ": " ++ e.message ++ "\n\n") := by
  have place := Alike.paint palette .boldRed (closed_headline e.position)
  have colon : Alike ": " ": " := .of_closed (closed_of_notMem (by decide))
  have message := Alike.paint_line palette .red e.message
  have head := (((alike_feed.append place).append colon).append message).append alike_feed
  have first : "\nLexical error at line " = "\n" ++ "Lexical error at line " := by simp
  have feeds : "\n\n" = "\n" ++ "\n" := rfl
  rw [first, feeds]
  simp only [← String.append_assoc] at head ⊢
  exact head

theorem alike_row (p : Position) (i : Nat) (content : String) {left right : String}
    (alike : Alike left right) :
    Alike
      (if i = p.line - 1 then
        left ++ palette.paint .red (" → " ++ lineNumber (i + 1) ++ " | " ++ content ++ "\n") ++
          palette.paint .red "        | " ++ String.ofList (List.replicate (p.column - 1) ' ') ++
          palette.paint .boldRed "^" ++ "\n"
      else
        left ++ palette.paint .dimmed
          ("   " ++ lineNumber (i + 1) ++ " | " ++ content ++ "\n"))
      (if i = p.line - 1 then
        right ++ " → " ++ lineNumber (i + 1) ++ " | " ++ content ++ "\n" ++ "        | " ++
          String.ofList (List.replicate (p.column - 1) ' ') ++ "^\n"
      else right ++ "   " ++ lineNumber (i + 1) ++ " | " ++ content ++ "\n") := by
  split
  · have marked := Alike.paint palette .red
      (closed_line (" → " ++ lineNumber (i + 1) ++ " | " ++ content))
    have margin : Alike (palette.paint .red "        | ") "        | " :=
      .paint palette .red (closed_of_notMem (by decide))
    have caret := Alike.paint_line palette .boldRed "^"
    have row := ((((alike.append marked).append margin).append
      (.of_closed (closed_spaces (p.column - 1)))).append caret)
    have feed : "^" ++ "\n" = "^\n" := rfl
    rw [feed] at row
    simpa only [String.append_assoc] using row
  · have row := alike.append (.paint palette .dimmed
      (closed_line ("   " ++ lineNumber (i + 1) ++ " | " ++ content)))
    simpa only [String.append_assoc] using row

theorem alike_foldl {α : Type} {f g : String → α → String}
    (each : ∀ x {left right}, Alike left right → Alike (f left x) (g right x)) (values : List α)
    {left right : String} (alike : Alike left right) :
    Alike (values.foldl f left) (values.foldl g right) := by
  induction values generalizing left right with
  | nil => exact alike
  | cons x later ih => exact ih (each x alike)

/-- Without the sequences that set a style, a coloured diagnostic and a plain one are the same text. A
message or a line of the source that has such sequences, or breaks off in one, is no exception. This is
so for the palette of the program as for any other. -/
theorem unstyled_formatColored (source : String) (d : Diagnostic) :
    unstyled (formatColored source d) = unstyled (formatPlain source d) ∧
      ∀ palette : Palette,
        unstyled (formatPainted palette source d) = unstyled (formatPlain source d) := by
  suffices every : ∀ palette : Palette,
      unstyled (formatPainted palette source d) = unstyled (formatPlain source d) from
    ⟨every .standard, every⟩
  intro palette
  apply Alike.unstyled_eq
  cases d with
  | interval e =>
    have line := alike_feed.append (.paint_line palette .boldRed (interval e).render)
    rwa [← String.append_assoc, ← String.append_assoc] at line
  | lexical e =>
    refine alike_foldl ?_ _ (alike_head palette e)
    rintro ⟨i, content⟩ left right alike
    exact alike_row palette e.position i content alike

end Layout

end DemandLex.Diagnostic
