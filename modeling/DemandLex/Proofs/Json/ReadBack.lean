import DemandLex.Proofs.CommandLine.Output
import DemandLex.Proofs.Json.Fields

/-! The lexer reads back the reports on its own tokens. -/

namespace DemandLex

open Binary64

namespace Token

def readBack : Token → Token
  | .terminal => .identifier "null"
  | .unknownCharacter c => .string c.toString
  | .identifier value => .string value
  | .string value => .string value
  | .number x => if x.isFinite then .number x else .string "inf"
  | .symbol s => .string s.toChar.toString

def ofReport? : Token → Token → Option Token
  | .string "terminal", .identifier "null" => some .terminal
  | .string "unknown_character_error", .string text => text.toList.head?.map .unknownCharacter
  | .string "id", .string text => some (.identifier text)
  | .string "string", .string text => some (.string text)
  | .string "float_number", .number x => some (.number x)
  | .string "float_number", .string "inf" => some (.number (.infinity false))
  | .string "symbol", .string text => (text.toList.head?.bind Symbol.ofChar?).map .symbol
  | _, _ => none

/-- A number of the token has no sign, as numerals have none. -/
def Unsigned (t : Token) : Prop :=
  ∀ x, t = .number x → x.isNegative = false ∧ x.isNaN = false

variable {t : Token} {x : Binary64}

theorem eq_infinity (positive : x.isNegative = false) (number : x.isNaN = false)
    (large : x.isFinite = false) : x = .infinity false := by
  have magnitude : x.magnitude = infinityBits := by
    have le := isNaN_eq_false.mp number
    simp [isFinite] at large
    omega
  rw [← ofMagnitude_magnitude positive, magnitude, infinity]

theorem ofReport?_readBack (unsigned : t.Unsigned) :
    ofReport? (.string t.kind) t.readBack = some t := by
  cases t with
  | number x =>
    obtain ⟨positive, number⟩ := unsigned x rfl
    cases finite : x.isFinite with
    | true => simp [readBack, kind, finite, ofReport?]
    | false =>
      rw [eq_infinity positive number finite]
      rfl
  | symbol s => cases s <;> rfl
  | _ => simp [ofReport?, kind, readBack]

end Token

namespace Grammar

variable {chars : List Char} {pieces : List Piece} {x : Binary64} {p q : Position}

theorem Splits.exists_numeral (splits : Splits chars pieces)
    (member : ⟨.number x, q⟩ ∈ tokens p pieces) : ∃ n : Numeral, n.value = x := by
  induction splits generalizing p with
  | nil => simp [tokens] at member
  | blank skipped later ih => exact ih member
  | lexeme longest later ih =>
    rw [tokens, List.mem_cons] at member
    rcases member with first | member
    · cases longest.lexeme <;> simp_all
    · exact ih member

end Grammar

theorem unsigned_tokenize (source : String) : ∀ t ∈ tokenize source, t.token.Unsigned := by
  rintro ⟨_, q⟩ member x rfl
  obtain ⟨pieces, splits⟩ := Grammar.exists_splits source.toList
  rw [LexState.tokenize_eq, splits.tokens_eq] at member
  obtain ⟨n, rfl⟩ := splits.exists_numeral member
  exact ⟨n.value_isNearest.positive, n.value_isNearest.number⟩

/-- The tokens behind the keys of a text are those of a report on tokens and on places: the kinds and
the values in order, which tell the tokens, and the places in order. -/
structure ReadsBack (behind : String → List Token) (ts : List Located) (places : List Position) :
    Prop where
  kinds : behind "kind" = ts.map fun t => .string t.token.kind
  values : behind "value" = ts.map fun t => t.token.readBack
  lines : behind "line" = places.map fun p => .number (.ofNat p.line)
  columns : behind "column" = places.map fun p => .number (.ofNat p.column)
  tokens : List.zipWith Token.ofReport? (behind "kind") (behind "value") =
    ts.map fun t => some t.token

namespace Report

open Json

section Plain

theorem tokenValue_eq {t : Token} (unsigned : t.Unsigned) :
    (tokenValue t).Plain ∧ (tokenValue t).tokens = [t.readBack] ∧
      ∀ key, (tokenValue t).named key = [] := by
  cases t with
  | number x =>
    obtain ⟨positive, number⟩ := unsigned x rfl
    cases finite : x.isFinite with
    | true => simp [tokenValue, Token.readBack, finite, Plain, Json.tokens, named, positive]
    | false =>
      rw [Token.eq_infinity positive number finite]
      exact ⟨trivial, rfl, fun _ => rfl⟩
  | _ => exact ⟨trivial, rfl, fun _ => rfl⟩

theorem plain_token {t : Located} (unsigned : t.token.Unsigned) : (token t).Plain :=
  ⟨trivial, trivial, (tokenValue_eq unsigned).1, ⟨trivial, trivial, trivial⟩, trivial⟩

theorem plain_error (e : LexError) : (error (.lexical e)).Plain :=
  ⟨trivial, trivial, ⟨trivial, trivial, trivial⟩, trivial⟩

theorem plainItems_map {α : Type} {f : α → Json} {values : List α}
    (each : ∀ value ∈ values, (f value).Plain) : PlainItems (values.map f) := by
  induction values with
  | nil => trivial
  | cons value later ih =>
    exact ⟨each value List.mem_cons_self,
      ih fun next member => each next (List.mem_cons_of_mem value member)⟩

theorem plain_tokens {ts : List Located} (unsigned : ∀ t ∈ ts, t.token.Unsigned) :
    (tokens ts).Plain :=
  ⟨trivial, trivial, ⟨trivial, trivial, trivial⟩,
    plainItems_map fun t member => plain_token (unsigned t member),
    plainItems_map fun e _ => plain_error e, trivial⟩

theorem plain_summary (ts : List Located) : (summary ts).Plain :=
  ⟨trivial, trivial, ⟨trivial, trivial, trivial⟩, trivial⟩

end Plain

section Named

theorem readsBack_token {t : Located} (unsigned : t.token.Unsigned) :
    ReadsBack (fun key => (token t).named key) [t] [t.position] := by
  obtain ⟨-, own, others⟩ := tokenValue_eq unsigned
  constructor <;> simp [token, location, named, namedFields, Json.tokens, own, others,
    Token.ofReport?_readBack unsigned]

theorem readsBack_summary (ts : List Located) :
    ReadsBack (fun key => (summary ts).named key) [] [] := by
  constructor <;> simp [summary, counts, named, namedFields]

theorem named_error (e : LexError) :
    (error (.lexical e)).named "kind" = [] ∧ (error (.lexical e)).named "value" = [] ∧
      (error (.lexical e)).named "line" = [.number (.ofNat e.position.line)] ∧
      (error (.lexical e)).named "column" = [.number (.ofNat e.position.column)] := by
  simp [error, location, named, namedFields, Json.tokens]

theorem named_tokens {key : String} (known : key ∈ ["kind", "value", "line", "column"])
    (ts : List Located) :
    (tokens ts).named key = ts.flatMap (fun t => (token t).named key) ++
      (LexError.ofTokens ts).flatMap fun e => (error (.lexical e)).named key := by
  simp only [List.mem_cons, List.not_mem_nil, or_false] at known
  rcases known with rfl | rfl | rfl | rfl <;>
    simp [tokens, counts, named, namedFields, namedItems_map]

variable {ts : List Located}

/-- Where the items of both lists have one token each behind a key, which tells their place, there
stand the places of the tokens and behind them those of the errors. -/
theorem named_tokens_places {key : String} {f : Position → Token}
    (known : key ∈ ["kind", "value", "line", "column"])
    (own : ∀ t ∈ ts, (token t).named key = [f t.position])
    (faults : ∀ e, (error (.lexical e)).named key = [f e.position]) :
    (tokens ts).named key = ((ts ++ ts.filter Located.isError).map Located.position).map f := by
  have errors : (LexError.ofTokens ts).flatMap (fun e => (error (.lexical e)).named key) =
      ((ts.filter Located.isError).map Located.position).map f := by
    rw [← LexError.position_ofTokens, List.map_map, List.map_eq_flatMap]
    exact List.flatMap_congr fun e _ => faults e
  rw [named_tokens known, List.flatMap_congr own, ← List.map_eq_flatMap, errors]
  simp

theorem readsBack_tokens (unsigned : ∀ t ∈ ts, t.token.Unsigned) :
    ReadsBack (fun key => (tokens ts).named key) ts
      ((ts ++ ts.filter Located.isError).map Located.position) := by
  have each (t : Located) (member : t ∈ ts) := readsBack_token (unsigned t member)
  have kinds : (tokens ts).named "kind" = ts.map fun t => .string t.token.kind := by
    rw [named_tokens (by simp), List.flatMap_congr fun t member => (each t member).kinds]
    simp [named_error, ← List.map_eq_flatMap]
  have values : (tokens ts).named "value" = ts.map fun t => t.token.readBack := by
    rw [named_tokens (by simp), List.flatMap_congr fun t member => (each t member).values]
    simp [named_error, ← List.map_eq_flatMap]
  refine ⟨kinds, values, ?_, ?_, ?_⟩
  · exact named_tokens_places (by simp) (fun t member => (each t member).lines)
      fun e => (named_error e).2.2.1
  · exact named_tokens_places (by simp) (fun t member => (each t member).columns)
      fun e => (named_error e).2.2.2
  · rw [kinds, values, List.zipWith_map, List.zipWith_self]
    exact List.map_congr_left fun t member => Token.ofReport?_readBack (unsigned t member)

end Named

end Report

/-- The report on the tokens of a source is read back, as one text or line by line: nothing in it is
an error, and behind its keys stand the kinds, the values and the positions of the tokens in order.
No token is lost or added, whatever texts the tokens have. Behind the positions of the tokens stand
those of the errors, which are listed once more. A position is read back as the nearest double, and
as itself up to `2 ^ 53`. All of this is so for every printer of JSON and not only for the compact
one. -/
theorem tokenize_reports (source : String) :
    let ts := tokenize source
    let places := (ts ++ ts.filter Located.isError).map Located.position
    let behind (print : Json → String) (j : Json) (key : String) :=
      behindKey key ((tokenize (print j)).map Located.token)
    (∀ mode, mode ≠ .text → ∀ line ∈ Report.outputLines mode ts, ∀ t ∈ tokenize line,
      t.isError = false) ∧
    Json.Prints Json.compact ∧
    (∀ print : Json → String, Json.Prints print →
      (∀ j ∈ Report.tokens ts :: Report.summary ts :: ts.map Report.token, ∀ t ∈ tokenize (print j),
        t.isError = false) ∧
      ReadsBack (behind print (Report.tokens ts)) ts places ∧
      (∀ t ∈ ts, ReadsBack (behind print (Report.token t)) [t] [t.position]) ∧
      ReadsBack (behind print (Report.summary ts)) [] []) ∧
    ∀ n, (Binary64.ofNat n).IsNearest n ∧ (n ≤ 2 ^ 53 → (Binary64.ofNat n).IsExact n) := by
  intro ts places behind
  have unsigned := unsigned_tokenize source
  have document := Report.plain_tokens unsigned
  have item (t : Located) (member : t ∈ ts) := Report.plain_token (unsigned t member)
  have clean {print : Json → String} (prints : Json.Prints print) {j : Json} (plain : j.Plain) :
      ∀ t ∈ tokenize (print j), t.isError = false := (Json.tokenize_print prints plain).2
  have named {print : Json → String} (prints : Json.Prints print) {j : Json} (plain : j.Plain) :
      behind print j = fun key => j.named key :=
    funext fun key => Json.behindKey_print prints plain key
  refine ⟨?_, Json.prints_compact, ?_, fun n => ⟨ofNat_isNearest n, fun small => ?_⟩⟩
  · rintro (_ | _ | _) machine line member
    · exact absurd rfl machine
    · exact List.mem_singleton.mp member ▸ clean Json.prints_compact document
    · rcases List.mem_append.mp member with member | member
      · obtain ⟨t, inside, rfl⟩ := List.mem_map.mp member
        exact clean Json.prints_compact (item t inside)
      · exact List.mem_singleton.mp member ▸ clean Json.prints_compact (Report.plain_summary ts)
  · intro print prints
    refine ⟨?_, ?_, fun t member => ?_, ?_⟩
    · rw [List.forall_mem_cons, List.forall_mem_cons, List.forall_mem_map]
      exact ⟨clean prints document, clean prints (Report.plain_summary ts),
        fun t member => clean prints (item t member)⟩
    · rw [named prints document]
      exact Report.readsBack_tokens unsigned
    · rw [named prints (item t member)]
      exact Report.readsBack_token (unsigned t member)
    · rw [named prints (Report.plain_summary ts)]
      exact Report.readsBack_summary ts
  · simpa using ofNat_isExact (k := 0) small (Nat.zero_le _)

/-- A source with a string, a colon and a character that starts no token, like a field of the report
itself. -/
theorem tokenize_reports_field :
    let source := "\"value\": #"
    let ts : List Located := [⟨.string "value", ⟨1, 1⟩⟩, ⟨.symbol .colon, ⟨1, 8⟩⟩,
      ⟨.unknownCharacter '#', ⟨1, 10⟩⟩, ⟨.terminal, ⟨1, 11⟩⟩]
    let behind (j : Json) (key : String) := behindKey key ((tokenize j.compact).map Located.token)
    tokenize source = ts ∧
      (∀ t ∈ tokenize (Report.tokens ts).compact, t.isError = false) ∧
      behind (Report.tokens ts) "value" =
        [.string "value", .string ":", .string "#", .identifier "null"] ∧
      behind (Report.tokens ts) "column" =
        [1, 8, 10, 11, 10].map (fun column => .number (.ofNat column)) ∧
      behind (Report.token ⟨.symbol .colon, ⟨1, 8⟩⟩) "value" = [.string ":"] ∧
      (Binary64.ofNat 11).IsExact 11 := by
  intro source ts behind
  have tokens : tokenize source = ts := by decide +kernel
  obtain ⟨clean, prints, read, numbers⟩ := tokenize_reports source
  rw [tokens] at clean read
  obtain ⟨-, document, lines, -⟩ := read Json.compact prints
  refine ⟨tokens, ?_, document.values, ?_, (lines _ (by simp [ts])).values, ?_⟩
  · exact clean .json (by decide) _ List.mem_cons_self
  · exact document.columns
  · exact_mod_cast (numbers 11).2 (by decide)

end DemandLex
