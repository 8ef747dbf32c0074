import DemandLex.Json
import DemandLex.Proofs.Json.Lexing
import DemandLex.Proofs.Json.Numbers
import Mathlib.Tactic.SplitIfs

/-! The compact text of a value is a text of JSON, and whichever text of JSON a value is printed as, it is
read as the tokens of the value. -/

namespace DemandLex

open JsonText

namespace Json

mutual

/-- All doubles in a value are finite and without a sign. Others are no numbers of JSON, or they are
read as two tokens. -/
def Plain : Json → Prop
  | float x => x.isNegative = false ∧ x.isFinite = true
  | array items => PlainItems items
  | object fields => PlainFields fields
  | _ => True

def PlainItems : List Json → Prop
  | [] => True
  | item :: rest => item.Plain ∧ PlainItems rest

def PlainFields : List (String × Json) → Prop
  | [] => True
  | (_, value) :: rest => value.Plain ∧ PlainFields rest

end

mutual

def tokens : Json → List Token
  | null => [.identifier "null"]
  | bool b => [.identifier (if b then "true" else "false")]
  | nat n => [.number (.ofNat n)]
  | float x => [.number x]
  | string text => [.string text]
  | array items => .symbol .leftBracket :: (itemTokens items ++ [.symbol .rightBracket])
  | object fields => .symbol .leftBrace :: (fieldTokens fields ++ [.symbol .rightBrace])

def itemTokens : List Json → List Token
  | [] => []
  | [item] => item.tokens
  | item :: rest => item.tokens ++ .symbol .comma :: itemTokens rest

def fieldTokens : List (String × Json) → List Token
  | [] => []
  | [(name, value)] => .string name :: .symbol .colon :: value.tokens
  | (name, value) :: rest =>
    .string name :: .symbol .colon :: (value.tokens ++ .symbol .comma :: fieldTokens rest)

end

mutual

/-- A value of the grammar that is this value, with a numeral for each number that is read as it. -/
inductive StandsFor : Value → Json → Prop
  | null : StandsFor .null .null
  | bool (b : Bool) : StandsFor (.bool b) (.bool b)
  | nat {n : Number} {k : Nat} (positive : n.negative = false) (value : n.value = .ofNat k) :
      StandsFor (.number n) (.nat k)
  | float {n : Number} {x : Binary64} (positive : n.negative = false) (value : n.value = x) :
      StandsFor (.number n) (.float x)
  | string (text : String) : StandsFor (.string text) (.string text)
  | array {vs : List Value} {items : List Json} (all : ItemsStandFor vs items) :
      StandsFor (.array vs) (.array items)
  | object {members : List (String × Value)} {fields : List (String × Json)}
      (all : MembersStandFor members fields) : StandsFor (.object members) (.object fields)

inductive ItemsStandFor : List Value → List Json → Prop
  | nil : ItemsStandFor [] []
  | cons {v : Value} {j : Json} {vs : List Value} {items : List Json} (first : StandsFor v j)
      (later : ItemsStandFor vs items) : ItemsStandFor (v :: vs) (j :: items)

inductive MembersStandFor : List (String × Value) → List (String × Json) → Prop
  | nil : MembersStandFor [] []
  | cons (name : String) {v : Value} {j : Json} {members : List (String × Value)}
      {fields : List (String × Json)} (first : StandsFor v j)
      (later : MembersStandFor members fields) :
      MembersStandFor ((name, v) :: members) ((name, j) :: fields)

end

mutual

theorem StandsFor.tokens_eq : ∀ {v : Value} {j : Json}, StandsFor v j → v.tokens = j.tokens
  | _, _, .null => rfl
  | _, _, .bool _ => rfl
  | _, _, .nat positive value => by simp [Value.tokens, tokens, positive, value]
  | _, _, .float positive value => by simp [Value.tokens, tokens, positive, value]
  | _, _, .string _ => rfl
  | _, _, .array all => by rw [Value.tokens, tokens, all.tokens_eq]
  | _, _, .object all => by rw [Value.tokens, tokens, all.tokens_eq]

theorem ItemsStandFor.tokens_eq : ∀ {vs : List Value} {items : List Json},
    ItemsStandFor vs items → JsonText.itemTokens vs = itemTokens items
  | _, _, .nil => rfl
  | _, _, .cons first .nil => first.tokens_eq
  | _, _, .cons first (.cons second later) => by
    have others := (ItemsStandFor.cons second later).tokens_eq
    exact congrArg₂ (· ++ .symbol .comma :: ·) first.tokens_eq others

theorem MembersStandFor.tokens_eq : ∀ {members : List (String × Value)}
    {fields : List (String × Json)}, MembersStandFor members fields →
    memberTokens members = fieldTokens fields
  | _, _, .nil => rfl
  | _, _, .cons name first .nil => by rw [memberTokens, fieldTokens, first.tokens_eq]
  | _, _, .cons name first (.cons next second later) => by
    have others := (MembersStandFor.cons next second later).tokens_eq
    rw [memberTokens, fieldTokens, first.tokens_eq, others]
    · exact nofun
    · exact nofun

end

section Strings
variable {text body : List Char}

theorem writesUnit_control : ∀ n < 0x20,
    let digits := ['0', '0', Nat.digitChar (n / 16), Nat.digitChar (n % 16)]
    digits.all (fun c => (LexState.hexValue? c).isSome) = true ∧ Grammar.hexNumber digits = n := by
  decide

theorem spells_escapeChar (c : Char) (later : Spells text body) :
    Spells (c :: text) ((escapeChar c).toList ++ body) := by
  rw [escapeChar]
  split_ifs with quote backslash bell tab feed form return_ control
  · exact quote ▸ .short (by decide) later
  · exact backslash ▸ .short (by decide) later
  · exact bell ▸ .short (by decide) later
  · exact tab ▸ .short (by decide) later
  · exact feed ▸ .short (by decide) later
  · exact form ▸ .short (by decide) later
  · exact return_ ▸ .short (by decide) later
  · obtain ⟨hex, number⟩ := writesUnit_control c.toNat control
    have whole : Utf16.units c = [c.toNat] := if_pos (control.trans (by decide))
    have writes : WritesUnit _ c.toNat := ⟨rfl, List.all_eq_true.mp hex, number⟩
    simpa using Spells.unit whole writes later
  · simpa using Spells.raw (not_lt.mp control) quote backslash later

theorem toList_quote (s : String) :
    (quote s).toList = '"' :: (s.toList.flatMap (fun c => (escapeChar c).toList) ++ ['"']) := by
  have inside (chars : List Char) (front : String) :
      (chars.foldl (fun text c => text ++ escapeChar c) front).toList =
        front.toList ++ chars.flatMap fun c => (escapeChar c).toList := by
    induction chars generalizing front with
    | nil => simp
    | cons c later ih => simp [ih]
  simp [quote, inside]

theorem quotes_quote (s : String) : Quotes s (quote s).toList := by
  rw [toList_quote]
  refine .mk ?_
  induction s.toList with
  | nil => exact .nil
  | cons c later ih => exact spells_escapeChar c ih

end Strings

section Bare
variable {v : Value} {members : List (String × Value)} {name : String} {key text rest : List Char}

theorem padded (renders : Renders v text) : Padded v text := by
  have own : Padded v ([] ++ (text ++ [])) := .mk nofun renders nofun
  rwa [List.nil_append, List.append_nil] at own

theorem spaced (renders : Renders v text) : Padded v (' ' :: text) := by
  have space : Blank [' '] := fun c member => List.mem_singleton.mp member ▸ rfl
  have own : Padded v ([' '] ++ (text ++ [])) := .mk space renders nofun
  rwa [List.append_nil] at own

theorem lastMember (quotes : Quotes name key) (renders : Renders v text) :
    Members [(name, v)] (key ++ ':' :: text) := by
  have own : Members [(name, v)] ([] ++ (key ++ ([] ++ ':' :: text))) :=
    .last nofun quotes nofun (padded renders)
  exact own

theorem moreMembers (quotes : Quotes name key) (renders : Renders v text)
    (all : Members members rest) :
    Members ((name, v) :: members) (key ++ ':' :: (text ++ ',' :: rest)) := by
  have own : Members ((name, v) :: members) ([] ++ (key ++ ([] ++ ':' :: (text ++ ',' :: rest)))) :=
    .more nofun quotes nofun (padded renders) all
  exact own

theorem noItems : Renders (.array []) "[]".toList := by
  have own : Renders (.array []) ('[' :: ([] ++ [']'])) := .noItems nofun
  exact own

theorem noMembers : Renders (.object []) "\x7b\x7d".toList := by
  have own : Renders (.object []) ('\x7b' :: ([] ++ ['\x7d'])) := .noMembers nofun
  exact own

end Bare

mutual

theorem exists_renders : ∀ {j : Json}, j.Plain → ∃ v, Renders v j.compact.toList ∧ StandsFor v j
  | null, _ => ⟨.null, .null, .null⟩
  | bool true, _ => ⟨.bool true, .true, .bool true⟩
  | bool false, _ => ⟨.bool false, .false, .bool false⟩
  | nat k, _ => by
    obtain ⟨n, positive, chars, value⟩ := exists_reads_nat k
    rw [compact, ← chars]
    exact ⟨.number n, .number, .nat positive value⟩
  | float x, ⟨sign, finite⟩ => by
    obtain ⟨n, positive, chars, value⟩ := exists_reads_float sign finite
    rw [compact, ← chars]
    exact ⟨.number n, .number, .float positive value⟩
  | string text, _ => by
    rw [compact]
    exact ⟨.string text, .string (quotes_quote text), .string text⟩
  | array [], _ => ⟨.array [], noItems, .array .nil⟩
  | array (item :: rest), plain => by
    obtain ⟨vs, all, same⟩ := exists_items (List.cons_ne_nil item rest) plain
    refine ⟨.array vs, ?_, .array same⟩
    rw [compact]
    simpa using Renders.array all
  | object [], _ => ⟨.object [], noMembers, .object .nil⟩
  | object (field :: rest), plain => by
    obtain ⟨vs, all, same⟩ := exists_members (List.cons_ne_nil field rest) plain
    refine ⟨.object vs, ?_, .object same⟩
    rw [compact]
    simpa using Renders.object all

theorem exists_items : ∀ {items : List Json}, items ≠ [] → PlainItems items →
    ∃ vs, Items vs (",".intercalate (compactItems items)).toList ∧ ItemsStandFor vs items
  | [], nonempty, _ => absurd rfl nonempty
  | [item], _, plain => by
    obtain ⟨v, renders, same⟩ := exists_renders plain.1
    exact ⟨[v], by simpa [compactItems] using Items.last (padded renders), .cons same .nil⟩
  | item :: next :: rest, _, plain => by
    obtain ⟨v, renders, same⟩ := exists_renders plain.1
    obtain ⟨vs, all, others⟩ := exists_items (List.cons_ne_nil next rest) plain.2
    refine ⟨v :: vs, ?_, .cons same others⟩
    rw [compactItems, compactItems, String.intercalate_cons_cons, ← compactItems]
    simpa using Items.more (padded renders) all

theorem exists_members : ∀ {fields : List (String × Json)}, fields ≠ [] → PlainFields fields →
    ∃ vs, Members vs (",".intercalate (compactFields fields)).toList ∧ MembersStandFor vs fields
  | [], nonempty, _ => absurd rfl nonempty
  | [(name, value)], _, plain => by
    obtain ⟨v, renders, same⟩ := exists_renders plain.1
    refine ⟨[(name, v)], ?_, .cons name same .nil⟩
    simpa [compactFields] using lastMember (quotes_quote name) renders
  | (name, value) :: next :: rest, _, plain => by
    obtain ⟨v, renders, same⟩ := exists_renders plain.1
    obtain ⟨vs, all, others⟩ := exists_members (List.cons_ne_nil next rest) plain.2
    refine ⟨(name, v) :: vs, ?_, .cons name same others⟩
    rw [compactFields, compactFields, String.intercalate_cons_cons, ← compactFields]
    simpa using moreMembers (quotes_quote name) renders all

end

/-- A printer may choose the white space, the escapes in strings and the numerals of numbers, as long as
they are read as the numbers. -/
def Prints (print : Json → String) : Prop :=
  ∀ j : Json, j.Plain → ∃ v, Padded v (print j).toList ∧ StandsFor v j

theorem prints_compact : Prints compact := by
  intro j plain
  obtain ⟨v, renders, same⟩ := exists_renders plain
  exact ⟨v, padded renders, same⟩

theorem tokenize_print {print : Json → String} (prints : Prints print) {j : Json} (plain : j.Plain) :
    (tokenize (print j)).map Located.token = j.tokens ++ [.terminal] ∧
      ∀ t ∈ tokenize (print j), t.isError = false := by
  obtain ⟨v, padded, same⟩ := prints j plain
  exact ⟨same.tokens_eq ▸ tokens_padded padded, isError_padded padded⟩

end Json

end DemandLex
