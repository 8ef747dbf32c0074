import DemandLex.Proofs.Json.Compact
import DemandLex.Proofs.Lexer.Lines
import DemandLex.Proofs.Lexer.Positions
import DemandLex.Proofs.Text.OneLine
import DemandLex.Workload

/-! The tokens of the documents for measuring: an array with one record on each line. -/

namespace DemandLex

open JsonText Decimal Binary64

namespace Workload

/-- The ratio of a record, of which two digits are taken off by the exponent. -/
def recordRatio (i : Nat) : ℚ := ((i % 97 : Nat) + (i % 13 : Nat) / 10 ^ (toString (i % 13)).length) / 100

def recordName (i : Nat) : String := "itemé" ++ toString i

def recordTokens (i : Nat) (id ratio : Binary64) : List Token :=
  [.symbol .leftBrace, .string "id", .symbol .colon, .number id, .symbol .comma,
    .string "name", .symbol .colon, .string (recordName i), .symbol .comma,
    .string "ratio", .symbol .colon, .number ratio, .symbol .comma,
    .string "tags", .symbol .colon, .symbol .leftBracket, .identifier "true", .symbol .comma,
    .identifier "null", .symbol .rightBracket, .symbol .rightBrace]

def separator (records i : Nat) : List Char := if i + 1 = records then [] else [',']

section Record

theorem exists_reads_hundredth {whole fraction : List Char} (leads : Leads whole)
    (nonempty : fraction ≠ []) (inside : ∀ c ∈ fraction, isDigit c = true)
    (few : whole.length + fraction.length ≤ 65212) :
    ∃ n : Number, n.negative = false ∧
      n.chars = whole ++ '.' :: (fraction ++ ['e', '-', '2']) ∧
      n.value.IsNearest ((value whole + value fraction / 10 ^ fraction.length) / 100) := by
  have bounded : (partsOf whole fraction (some (-2))).Bounded := by
    refine Or.inl ?_
    rwa [digits_partsOf, List.length_append]
  have two : (toString 2).toList = ['2'] := rfl
  have chars : (partsOf whole fraction (some (-2))).chars =
      (String.ofList (whole ++ '.' :: (fraction ++ ['e', '-', '2']))).toList := by
    rw [String.toList_ofList]
    simp [partsOf, Grammar.Parts.chars, Grammar.Exponent.chars, nonempty, -Nat.toString_eq_repr, two]
  have positive : 0 < 10 ^ (fraction.length + 2) := by positivity
  have nearest : (ofQuotient false (value (whole ++ fraction))
      (10 ^ (fraction.length + 2))).IsNearest _ := ofQuotient_isNearest positive
  have shift : (value (whole ++ fraction) : ℚ) / (10 ^ (fraction.length + 2) : Nat) =
      value (whole ++ fraction) * 10 ^ ((-2 : ℤ) - fraction.length) := by
    have power : (-2 : ℤ) - fraction.length = -(fraction.length + 2 : Nat) := by
      push_cast
      ring
    rw [power, zpow_neg, zpow_natCast, div_eq_mul_inv, Nat.cast_pow, Nat.cast_ofNat]
  have same : (value (whole ++ fraction) : ℚ) / (10 ^ (fraction.length + 2) : Nat) =
      (value whole + value fraction / 10 ^ fraction.length) / 100 := by
    rw [value_append]
    push_cast
    field_simp
    ring
  obtain ⟨n, sign, written, read⟩ := exists_reads leads inside bounded chars (shift ▸ nearest)
  rw [String.toList_ofList] at written
  rw [same, ← read] at nearest
  exact ⟨n, sign, written, nearest⟩

theorem exists_reads_ratio (i : Nat) : ∃ n : Number, n.negative = false ∧
    n.chars = (toString (i % 97)).toList ++ '.' :: ((toString (i % 13)).toList ++ ['e', '-', '2']) ∧
    n.value.IsNearest (recordRatio i) := by
  have wide : ∀ n < 97, (toString n).toList.length ≤ 2 := by decide
  have few := wide _ (Nat.mod_lt i (by decide))
  have few' := wide _ ((Nat.mod_lt i (by decide : 0 < 13)).trans (by decide))
  have read := exists_reads_hundredth (leads_toString (i % 97)) (toList_toString_ne_nil (i % 13))
    (isDigit_of_mem_toString (i % 13)) (by omega)
  rwa [value_toString, value_toString, String.length_toList] at read

def isPlain (c : Char) : Bool := decide (0x20 ≤ c.toNat) && c != '"' && c != '\\'

theorem isPlain_iff {c : Char} : isPlain c = true ↔ 0x20 ≤ c.toNat ∧ c ≠ '"' ∧ c ≠ '\\' := by
  simp [isPlain, and_assoc]

theorem spells_plain {text : List Char} (plain : ∀ c ∈ text, isPlain c = true) : Spells text text := by
  induction text with
  | nil => exact .nil
  | cons c later ih =>
    obtain ⟨first, others⟩ := List.forall_mem_cons.mp plain
    obtain ⟨visible, quote, backslash⟩ := isPlain_iff.mp first
    exact .raw visible quote backslash (ih others)

theorem quotes_plain {name : String} (plain : name.toList.all isPlain = true) :
    Quotes name ('"' :: (name.toList ++ ['"'])) :=
  .mk (spells_plain (List.all_eq_true.mp plain))

theorem isPlain_of_isDigit {c : Char} (digit : isDigit c = true) : isPlain c = true := by
  have bounds := isDigit_iff.mp digit
  refine isPlain_iff.mpr ⟨by omega, ?_, ?_⟩
  · rintro rfl
    exact absurd digit (by decide)
  · rintro rfl
    exact absurd digit (by decide)

/-- The escape of a name takes its four digits only, whatever digits follow. -/
theorem quotes_recordName (i : Nat) : Quotes (recordName i)
    ('"' :: ("item\\u00e9".toList ++ (toString i).toList ++ ['"'])) := by
  have name : (recordName i).toList = 'i' :: 't' :: 'e' :: 'm' :: 'é' :: (toString i).toList := by
    rw [recordName, String.toList_append]
    rfl
  have accent : WritesUnit ['0', '0', 'e', '9'] 0xE9 := ⟨rfl, List.all_eq_true.mp rfl, rfl⟩
  have digits : Spells (toString i).toList (toString i).toList :=
    spells_plain fun c member => isPlain_of_isDigit (isDigit_of_mem_toString i c member)
  refine .mk ?_
  rw [name]
  exact .raw (by decide) (by decide) (by decide) (.raw (by decide) (by decide) (by decide)
    (.raw (by decide) (by decide) (by decide) (.raw (by decide) (by decide) (by decide)
      (.unit rfl accent digits))))

/-- The text of a record with these digits: its number, which stands in its name as well, and what is in
front of the point of its ratio and behind it. -/
def recordText (number whole fraction : List Char) : List Char :=
  "\x7b\"id\": ".toList ++ (number ++ (", \"name\": \"item\\u00e9".toList ++
    (number ++ ("\", \"ratio\": ".toList ++ (whole ++
      '.' :: (fraction ++ "e-2, \"tags\": [true, null]\x7d".toList))))))

def lineText (records i : Nat) : List Char :=
  ' ' :: ' ' :: (recordText (toString i).toList (toString (i % 97)).toList
    (toString (i % 13)).toList ++ separator records i)

theorem toList_recordLine (records i : Nat) :
    (recordLine records i).toList = lineText records i ++ ['\n'] := by
  unfold recordLine lineText recordText separator
  simp only [String.toList_append]
  split <;> simp

section Text
variable {name : String} {id ratio : Number} {number whole fraction : List Char}

def record (name : String) (id ratio : Number) : Value :=
  .object [("id", .number id), ("name", .string name), ("ratio", .number ratio),
    ("tags", .array [.bool true, .null])]

theorem renders_record (named : Quotes name ('"' :: ("item\\u00e9".toList ++ number ++ ['"'])))
    (chars : id.chars = number) (chars' : ratio.chars = whole ++ '.' :: (fraction ++ ['e', '-', '2'])) :
    Renders (record name id ratio) (recordText number whole fraction) := by
  have none : Blank [] := nofun
  have space : Blank [' '] := fun c member => List.mem_singleton.mp member ▸ rfl
  have idKey := @quotes_plain "id" rfl
  have nameKey := @quotes_plain "name" rfl
  have ratioKey := @quotes_plain "ratio" rfl
  have tagsKey := @quotes_plain "tags" rfl
  have items : Items [.bool true, .null] ("true".toList ++ ',' :: (' ' :: "null".toList)) :=
    .more (Json.padded .true) (.last (Json.spaced .null))
  have members := Members.more none idKey none (Json.spaced (Renders.number (n := id))) <|
    .more space nameKey none (Json.spaced (.string named)) <|
    .more space ratioKey none (Json.spaced (Renders.number (n := ratio))) <|
    .last space tagsKey none (Json.spaced (.array items))
  have object := Renders.object members
  rw [chars, chars'] at object
  unfold record recordText
  simpa using object

theorem feed_notMem_recordText (number' : '\n' ∉ number) (whole' : '\n' ∉ whole)
    (fraction' : '\n' ∉ fraction) : '\n' ∉ recordText number whole fraction := by
  unfold recordText
  simp [number', whole', fraction']

end Text

theorem tokens_record {id ratio : Number} (i : Nat) (sign : id.negative = false)
    (sign' : ratio.negative = false) :
    (record (recordName i) id ratio).tokens = recordTokens i id.value ratio.value := by
  simp [record, Value.tokens, memberTokens, itemTokens, recordTokens, sign, sign']

theorem exists_kinds_line (records i : Nat) : ∃ id ratio : Binary64,
    id.IsNearest i ∧ ratio.IsNearest (recordRatio i) ∧
      kinds (lineText records i) = recordTokens i id ratio ++ kinds (separator records i) := by
  obtain ⟨id, sign, chars, value⟩ := exists_reads_nat i
  obtain ⟨ratio, sign', chars', nearest⟩ := exists_reads_ratio i
  have follows : Follows (separator records i) := by
    rw [separator]
    split
    · nofun
    · exact follows_close (Or.inl rfl) []
  refine ⟨id.value, ratio.value, value ▸ ofNat_isNearest i, nearest, ?_⟩
  rw [lineText, kinds_blank rfl, kinds_blank rfl,
    kinds_renders (renders_record (quotes_recordName i) chars chars') follows,
    tokens_record i sign sign']

theorem kinds_separator (records i : Nat) : kinds (separator records i) =
    (if i + 1 = records then [] else [.symbol .comma]) ++ [.terminal] := by
  rw [separator]
  split
  · rfl
  · exact kinds_char ',' .comma rfl []

theorem feed_notMem_lineText (records i : Nat) : '\n' ∉ lineText records i := by
  have digits (n : Nat) : '\n' ∉ (toString n).toList := Text.oneLine_nat n
  have comma : '\n' ∉ separator records i := by
    rw [separator]
    split <;> decide
  simp only [lineText, List.mem_cons, List.mem_append, not_or]
  exact ⟨by decide, by decide, feed_notMem_recordText (digits i) (digits _) (digits _), comma⟩

end Record

section Document
variable {records : Nat}

theorem toList_jsonDocument (records : Nat) : (jsonDocument records).toList =
    '[' :: '\n' :: ((List.range' 0 records).flatMap (fun i => lineText records i ++ ['\n']) ++ [']']) := by
  have inside (indices : List Nat) (front : String) :
      (indices.foldl (fun text i => text ++ recordLine records i) front).toList =
        front.toList ++ indices.flatMap fun i => lineText records i ++ ['\n'] := by
    induction indices generalizing front with
    | nil => simp
    | cons i later ih => simp [ih, toList_recordLine]
  rw [jsonDocument, String.toList_append, inside, List.range_eq_range']
  rfl

def rowTokens (records i : Nat) : List Located :=
  (tokenize (String.ofList (lineText records i))).dropLast.map (Located.below (i + 1))

theorem tokenize_lines (records : Nat) : tokenize (jsonDocument records) =
    ⟨.symbol .leftBracket, ⟨1, 1⟩⟩ :: ((List.range records).flatMap (rowTokens records) ++
      [⟨.symbol .rightBracket, ⟨records + 2, 1⟩⟩, ⟨.terminal, ⟨records + 2, 2⟩⟩]) := by
  have first : tokenize (String.ofList ['[']) =
      [⟨.symbol .leftBracket, ⟨1, 1⟩⟩, ⟨.terminal, ⟨1, 2⟩⟩] := by decide +kernel
  have last : tokenize (String.ofList [']']) =
      [⟨.symbol .rightBracket, ⟨1, 1⟩⟩, ⟨.terminal, ⟨1, 2⟩⟩] := by decide +kernel
  have rows : _ = (List.range' 0 records).flatMap (rowTokens records) ++ _ :=
    tokenize_rows (feed_notMem_lineText records) [']'] 0 records
  have bottom : [⟨Token.symbol .rightBracket, ⟨1, 1⟩⟩, ⟨.terminal, ⟨1, 2⟩⟩].map
      (Located.below (0 + records + 1)) =
        [⟨.symbol .rightBracket, ⟨records + 2, 1⟩⟩, ⟨.terminal, ⟨records + 2, 2⟩⟩] := by
    have line : 1 + (0 + records + 1) = records + 2 := by omega
    simp only [List.map_cons, List.map_nil, Located.below, Located.relocate, Position.below, line]
  have text : jsonDocument records = String.ofList (['['] ++ '\n' ::
      ((List.range' 0 records).flatMap (fun i => lineText records i ++ ['\n']) ++ [']'])) := by
    rw [← String.toList_inj, String.toList_ofList, toList_jsonDocument]
    rfl
  have above : 1 + ['['].count '\n' = 0 + 1 := rfl
  rw [text, tokenize_feed, first, above, rows, last, bottom, List.range_eq_range']
  rfl

theorem line_of_mem_rowTokens {i : Nat} : ∀ t ∈ rowTokens records i, t.position.line = i + 2 := by
  intro t member
  obtain ⟨u, inside, rfl⟩ := List.mem_map.mp member
  have places := LexState.positions_sublist .standard
    (Tagged.ofText (String.ofList (lineText records i)))
  obtain ⟨x, tagged, same⟩ := List.mem_map.mp
    (places.mem (List.mem_map_of_mem (List.mem_of_mem_dropLast inside)))
  have single : '\n' ∉ (String.ofList (lineText records i)).toList := by
    rw [String.toList_ofList]
    exact feed_notMem_lineText records i
  have line := Tagged.line_of_mem_ofText single x tagged
  rw [same] at line
  change u.position.line + (i + 1) = i + 2
  omega

theorem exists_map_token_rowTokens (records i : Nat) : ∃ id ratio : Binary64,
    (id.IsNearest i ∧ ratio.IsNearest (recordRatio i)) ∧ (rowTokens records i).map Located.token =
      recordTokens i id ratio ++ if i + 1 = records then [] else [.symbol .comma] := by
  obtain ⟨id, ratio, nearest, nearest', read⟩ := exists_kinds_line records i
  have tokens : (tokenize (String.ofList (lineText records i))).map Located.token =
      kinds (lineText records i) := by
    rw [LexState.tokenize_eq, String.toList_ofList]
    rfl
  refine ⟨id, ratio, ⟨nearest, nearest'⟩, ?_⟩
  rw [rowTokens, List.map_map, List.map_dropLast]
  change ((tokenize _).map Located.token).dropLast = _
  rw [tokens, read, kinds_separator, ← List.append_assoc, List.dropLast_concat]

theorem length_rowTokens (records i : Nat) :
    (rowTokens records i).length = if i + 1 = records then 21 else 22 := by
  obtain ⟨id, ratio, -, tokens⟩ := exists_map_token_rowTokens records i
  have count := congrArg List.length tokens
  rw [List.length_map] at count
  rw [count]
  split <;> rfl

theorem length_flatMap_rowTokens (records : Nat) :
    ((List.range (records + 1)).flatMap (rowTokens (records + 1))).length = 22 * records + 21 := by
  have each : ∀ i ∈ List.range records, (rowTokens (records + 1) i).length = 22 := by
    intro i member
    have before := List.mem_range.mp member
    rw [length_rowTokens, if_neg (by omega)]
  have front : ((List.range records).map fun i => (rowTokens (records + 1) i).length).sum =
      22 * records :=
    calc
      _ = ((List.range records).map fun _ => 22).sum := congrArg List.sum (List.map_congr_left each)
      _ = 22 * records := by simp [Nat.mul_comm]
  have last : (rowTokens (records + 1) records).length = 21 := by
    rw [length_rowTokens, if_pos rfl]
  rw [List.range_succ, List.flatMap_append, List.length_append, List.length_flatMap, front,
    List.flatMap_singleton, last]

theorem isError_recordTokens (i : Nat) (id ratio : Binary64) :
    ∀ token ∈ recordTokens i id ratio, token.isError = false := by
  simp [recordTokens, Token.isError]

theorem isError_rowTokens {i : Nat} : ∀ t ∈ rowTokens records i, t.isError = false := by
  intro t member
  obtain ⟨id, ratio, -, tokens⟩ := exists_map_token_rowTokens records i
  have inside : t.token ∈ (rowTokens records i).map Located.token := List.mem_map_of_mem member
  rw [tokens] at inside
  rcases List.mem_append.mp inside with own | comma
  · exact isError_recordTokens i id ratio _ own
  · split at comma
    · cases comma
    · have same := List.mem_singleton.mp comma
      rw [Located.isError, same]
      rfl

/-- A document is read as the array that it is: one record after the other, each with its own number,
name and ratio on a line of its own, and a comma behind all of them but the last. Nothing in it is an
error. -/
theorem tokenize_jsonDocument (records : Nat) :
    ∃ id ratio : Nat → Binary64,
      (∀ i, (id i).IsNearest i ∧ (ratio i).IsNearest (recordRatio i)) ∧
      ∃ lines : Nat → List Located,
        tokenize (jsonDocument records) =
          ⟨.symbol .leftBracket, ⟨1, 1⟩⟩ :: ((List.range records).flatMap lines ++
            [⟨.symbol .rightBracket, ⟨records + 2, 1⟩⟩, ⟨.terminal, ⟨records + 2, 2⟩⟩]) ∧
        (∀ i < records,
          (lines i).map Located.token = recordTokens i (id i) (ratio i) ++
            (if i + 1 = records then [] else [.symbol .comma]) ∧
          ∀ t ∈ lines i, t.position.line = i + 2) ∧
        (∀ t ∈ tokenize (jsonDocument records), t.isError = false) ∧
        (tokenize (jsonDocument records)).length =
          if records = 0 then 3 else 22 * records + 2 := by
  choose id ratio nearest tokens using exists_map_token_rowTokens records
  refine ⟨id, ratio, nearest, rowTokens records, tokenize_lines records,
    fun i _ => ⟨tokens i, line_of_mem_rowTokens⟩, ?_, ?_⟩
  · intro t member
    rw [tokenize_lines, List.mem_cons, List.mem_append, List.mem_flatMap] at member
    rcases member with rfl | ⟨i, -, inside⟩ | behind
    · rfl
    · exact isError_rowTokens t inside
    · rcases List.mem_pair.mp behind with rfl | rfl <;> rfl
  · rw [tokenize_lines, List.length_cons, List.length_append]
    cases records with
    | zero => rfl
    | succ records =>
      rw [length_flatMap_rowTokens, if_neg (Nat.succ_ne_zero records)]
      simp
      omega

end Document

end Workload

end DemandLex
