import DemandLex.Proofs.Json.Grammar
import DemandLex.Proofs.Lexer.Kinds

/-! Every text of a JSON value is read as the tokens of the value. -/

namespace DemandLex.JsonText

open Grammar LexState Binary64

section Strings
variable {text chars body digits rest : List Char} {unit : Nat}

theorem hexDigits_of_hex (hex : ∀ c ∈ digits, (hexValue? c).isSome = true) (rest : List Char) :
    hexDigits digits.length (digits ++ rest) = digits := by
  induction digits with
  | nil => simp [hexDigits]
  | cons c later ih =>
    rw [List.length_cons, List.cons_append, hexDigits, if_pos (hex c List.mem_cons_self),
      ih fun d member => hex d (List.mem_cons_of_mem c member)]

theorem Body.hex (hex : ∀ c ∈ digits, (hexValue? c).isSome = true) (inside : Body body) :
    Body (digits ++ body) := by
  induction digits with
  | nil => exact inside
  | cons c later ih =>
    obtain ⟨quote, backslash, feed⟩ := ne_of_hexValue? (hex c List.mem_cons_self)
    exact .plain quote backslash feed (ih fun d member => hex d (List.mem_cons_of_mem c member))

theorem WritesUnit.bodyUnits (writes : WritesUnit digits unit) (rest : List Char) :
    bodyUnits ('\\' :: 'u' :: (digits ++ rest)) = unit :: Grammar.bodyUnits rest := by
  have read : hexDigits 4 (digits ++ rest) = digits := by
    rw [← writes.four]
    exact hexDigits_of_hex writes.hex rest
  rw [Grammar.bodyUnits, read, if_pos writes.four, writes.number, List.drop_left]
  rfl

theorem WritesUnit.inside (writes : WritesUnit digits unit) (inside : Body body) :
    Body ('\\' :: 'u' :: (digits ++ body)) :=
  .escape (by decide) (Body.hex writes.hex inside)

theorem shortEscapes_lookup {c letter : Char} (escape : (letter, c) ∈ shortEscapes) :
    shortEscapes.lookup letter = some c ∧ letter ≠ 'u' ∧ letter ≠ '\n' := by
  simp only [shortEscapes, List.mem_cons, Prod.mk.injEq, List.not_mem_nil, or_false] at escape
  rcases escape with ⟨rfl, rfl⟩ | ⟨rfl, rfl⟩ | ⟨rfl, rfl⟩ | ⟨rfl, rfl⟩ | ⟨rfl, rfl⟩ | ⟨rfl, rfl⟩ |
    ⟨rfl, rfl⟩ | ⟨rfl, rfl⟩ <;> decide

theorem Spells.bodyUnits (spells : Spells text body) :
    Body body ∧ Grammar.bodyUnits body = text.flatMap Utf16.units := by
  induction spells with
  | nil => exact ⟨.nil, by simp [Grammar.bodyUnits]⟩
  | @raw c text body visible quote backslash later ih =>
    have feed : c ≠ '\n' := by
      rintro rfl
      exact absurd visible (by decide)
    refine ⟨.plain quote backslash feed ih.1, ?_⟩
    rw [Grammar.bodyUnits, ih.2, List.flatMap_cons]
    · exact fun _ same _ => backslash same
    · exact fun _ _ same _ => backslash same
  | @short c letter text body escape later ih =>
    obtain ⟨found, unit, feed⟩ := shortEscapes_lookup escape
    refine ⟨.escape feed ih.1, ?_⟩
    rw [Grammar.bodyUnits, found, ih.2, List.flatMap_cons]
    exact unit
  | unit whole writes later ih =>
    refine ⟨writes.inside ih.1, ?_⟩
    rw [writes.bodyUnits, ih.2, List.flatMap_cons, whole]
    rfl
  | pair halves writesHigh writesLow later ih =>
    refine ⟨writesHigh.inside (writesLow.inside ih.1), ?_⟩
    rw [writesHigh.bodyUnits, writesLow.bodyUnits, ih.2, List.flatMap_cons, halves]
    rfl

theorem kinds_quotes {text : String} (quotes : Quotes text chars) (rest : List Char) :
    kinds (chars ++ rest) = .string text :: kinds rest := by
  obtain ⟨spells⟩ := quotes
  obtain ⟨inside, units⟩ := spells.bodyUnits
  rw [List.cons_append, List.append_assoc, List.singleton_append, kinds_string inside,
    finish_decode, units, Utf16.lossy_flatMap_units, String.ofList_toList]

end Strings

/-- What may come behind a value: the end of the text, white space, or what ends an item or a
member. -/
def Follows (rest : List Char) : Prop :=
  ∀ c ∈ rest.head?, isBlank c = true ∨ c = ',' ∨ c = ']' ∨ c = '\x7d'

section Values
variable {v : Value} {items : List Value} {members : List (String × Value)} {c : Char}
  {text rest : List Char}

theorem Follows.apart (follows : Follows rest) :
    ∀ c ∈ rest.head?, continuesIdentifier c = false ∧ Decimal.isDigit c = false ∧ c ≠ '.' ∧
      marksExponent c = false ∧ isSign c = false := by
  intro c first
  have cases := follows c first
  simp only [isBlank, Bool.or_eq_true, beq_iff_eq, or_assoc] at cases
  rcases cases with rfl | rfl | rfl | rfl | rfl | rfl | rfl <;> decide

theorem follows_blank (blank : Blank text) (follows : Follows rest) : Follows (text ++ rest) := by
  cases text with
  | nil => exact follows
  | cons c later =>
    intro d first
    cases first
    exact Or.inl (blank c List.mem_cons_self)

theorem kinds_word (word : List Char) (first : startsIdentifier c = true)
    (continues : word.all continuesIdentifier = true) (follows : Follows rest) :
    kinds (c :: (word ++ rest)) = .identifier (String.ofList (c :: word)) :: kinds rest :=
  kinds_identifier first (List.all_eq_true.mp continues) fun d head => (follows.apart d head).1

theorem kinds_number (n : Number) (follows : Follows rest) :
    kinds (n.chars ++ rest) =
      (if n.negative then [.symbol .minus] else []) ++ .number n.value :: kinds rest := by
  have stops : ∀ c ∈ rest.head?, continueNumeral .standard n.parts.phase c = none := by
    intro c head
    obtain ⟨-, digit, dot, letter, sign⟩ := follows.apart c head
    by_contra continues
    rcases continue_cases continues with more | ⟨-, more⟩ | ⟨-, more⟩ | ⟨-, more⟩ <;> simp_all
  have numeral := kinds_numeral n.formed stops
  rw [Parts.numeral_eq n.formed] at numeral
  rw [Number.chars, List.append_assoc]
  cases n.negative with
  | false => exact numeral
  | true => exact (kinds_symbol .minus).trans (congrArg _ numeral)

theorem follows_close {c : Char} (close : c = ',' ∨ c = ']' ∨ c = '\x7d') (rest : List Char) :
    Follows (c :: rest) := by
  intro d head
  cases head
  exact Or.inr close

theorem kinds_char (c : Char) (s : Symbol) (same : s.toChar = c) (rest : List Char) :
    kinds (c :: rest) = .symbol s :: kinds rest := same ▸ kinds_symbol s

theorem itemTokens_cons (all : Items items text) (v : Value) :
    itemTokens (v :: items) = v.tokens ++ .symbol .comma :: itemTokens items := by
  cases all <;> rfl

theorem memberTokens_cons (all : Members members text) (name : String) (v : Value) :
    memberTokens ((name, v) :: members) = .string name :: .symbol .colon ::
      (v.tokens ++ .symbol .comma :: memberTokens members) := by
  cases all <;> rfl

theorem kinds_name {name : String} {before key between : List Char} (front : Blank before)
    (quotes : Quotes name key) (back : Blank between) (rest : List Char) :
    kinds (before ++ (key ++ (between ++ ':' :: rest))) =
      .string name :: .symbol .colon :: kinds rest := by
  rw [kinds_blanks front, kinds_quotes quotes, kinds_blanks back, kinds_char ':' .colon rfl]

end Values

-- The recursion is on how the text is made. Where a container closes, its bracket is what comes
-- behind its last item, so items and members need nothing of the text behind it.
mutual

/-- A value is read as its tokens wherever what comes behind it is apart from it. -/
theorem kinds_renders : ∀ {v : Value} {text : List Char}, Renders v text →
    ∀ {rest : List Char}, Follows rest → kinds (text ++ rest) = v.tokens ++ kinds rest
  | _, _, .null, _, follows => kinds_word ['u', 'l', 'l'] rfl rfl follows
  | _, _, .true, _, follows => kinds_word ['r', 'u', 'e'] rfl rfl follows
  | _, _, .false, _, follows => kinds_word ['a', 'l', 's', 'e'] rfl rfl follows
  | _, _, .number, _, follows => by
    rw [kinds_number _ follows, Value.tokens, List.append_assoc, List.singleton_append]
  | _, _, .string quotes, rest, _ => kinds_quotes quotes rest
  | _, _, .noItems blank, rest, _ => by
    rw [List.cons_append, List.append_assoc, List.singleton_append, kinds_char '[' .leftBracket rfl,
      kinds_blanks blank, kinds_char ']' .rightBracket rfl]
    rfl
  | _, _, .array all, rest, _ => by
    rw [List.cons_append, List.append_assoc, List.singleton_append, kinds_char '[' .leftBracket rfl,
      kinds_items all, Value.tokens, List.cons_append, List.append_assoc, List.singleton_append]
  | _, _, .noMembers blank, rest, _ => by
    rw [List.cons_append, List.append_assoc, List.singleton_append,
      kinds_char '\x7b' .leftBrace rfl, kinds_blanks blank, kinds_char '\x7d' .rightBrace rfl]
    rfl
  | _, _, .object all, rest, _ => by
    rw [List.cons_append, List.append_assoc, List.singleton_append,
      kinds_char '\x7b' .leftBrace rfl, kinds_members all, Value.tokens, List.cons_append,
      List.append_assoc, List.singleton_append]

theorem kinds_padded : ∀ {v : Value} {text : List Char}, Padded v text →
    ∀ {rest : List Char}, Follows rest → kinds (text ++ rest) = v.tokens ++ kinds rest
  | _, _, .mk front renders back, _, follows => by
    rw [List.append_assoc, List.append_assoc, kinds_blanks front,
      kinds_renders renders (follows_blank back follows), kinds_blanks back]

theorem kinds_items : ∀ {items : List Value} {text : List Char}, Items items text →
    ∀ {rest : List Char},
      kinds (text ++ ']' :: rest) = itemTokens items ++ .symbol .rightBracket :: kinds rest
  | _, _, .last item, rest => by
    rw [kinds_padded item (follows_close (by simp) rest), itemTokens,
      kinds_char ']' .rightBracket rfl]
  | _, _, .more item all, rest => by
    rw [List.append_assoc, List.cons_append, kinds_padded item (follows_close (by simp) _),
      kinds_char ',' .comma rfl, kinds_items all, itemTokens_cons all, List.append_assoc,
      List.cons_append]

theorem kinds_members : ∀ {members : List (String × Value)} {text : List Char},
    Members members text → ∀ {rest : List Char},
      kinds (text ++ '\x7d' :: rest) = memberTokens members ++ .symbol .rightBrace :: kinds rest
  | _, _, .last front quotes back value, rest => by
    simp only [List.append_assoc, List.cons_append]
    rw [kinds_name front quotes back, kinds_padded value (follows_close (by simp) rest),
      kinds_char '\x7d' .rightBrace rfl]
    rfl
  | _, _, .more front quotes back value all, rest => by
    rw [memberTokens_cons all]
    simp only [List.append_assoc, List.cons_append]
    rw [kinds_name front quotes back, kinds_padded value (follows_close (by simp) _),
      kinds_char ',' .comma rfl, kinds_members all]

end

theorem tokens_padded {v : Value} {source : String} (padded : Padded v source.toList) :
    (tokenize source).map Located.token = v.tokens ++ [.terminal] := by
  have read : kinds (source.toList ++ []) = _ := kinds_padded padded nofun
  rw [List.append_nil, kinds_nil] at read
  rw [tokenize_eq]
  exact read

mutual

theorem Value.isError_tokens : ∀ (v : Value), ∀ t ∈ v.tokens, t.isError = false
  | .null => by simp [Value.tokens, Token.isError]
  | .bool _ => by simp [Value.tokens, Token.isError]
  | .number n => by cases sign : n.negative <;> simp [Value.tokens, Token.isError, sign]
  | .string _ => by simp [Value.tokens, Token.isError]
  | .array items => by
    have inside := isError_itemTokens items
    simpa [Value.tokens, Token.isError, or_imp, forall_and] using inside
  | .object members => by
    have inside := isError_memberTokens members
    simpa [Value.tokens, Token.isError, or_imp, forall_and] using inside

theorem isError_itemTokens : ∀ (items : List Value), ∀ t ∈ itemTokens items, t.isError = false
  | [] => nofun
  | [v] => v.isError_tokens
  | v :: w :: later => by
    have first := v.isError_tokens
    have others := isError_itemTokens (w :: later)
    simpa [itemTokens, Token.isError, or_imp, forall_and] using ⟨first, others⟩

theorem isError_memberTokens : ∀ (members : List (String × Value)),
    ∀ t ∈ memberTokens members, t.isError = false
  | [] => nofun
  | [(_, v)] => by
    have value := v.isError_tokens
    simpa [memberTokens, Token.isError, or_imp, forall_and] using value
  | (_, v) :: w :: later => by
    have value := v.isError_tokens
    have others := isError_memberTokens (w :: later)
    simpa [memberTokens, Token.isError, or_imp, forall_and] using ⟨value, others⟩

end

theorem isError_padded {v : Value} {source : String} (padded : Padded v source.toList) :
    ∀ t ∈ tokenize source, t.isError = false := by
  intro t member
  have listed : t.token ∈ v.tokens ++ [.terminal] :=
    tokens_padded padded ▸ List.mem_map_of_mem member
  rcases List.mem_append.mp listed with inside | last
  · exact v.isError_tokens _ inside
  · rw [Located.isError, List.mem_singleton.mp last]
    rfl

/-- However a JSON value is written, with any white space between its tokens, any escapes in its
strings and any spelling of its numbers, it is read as its tokens and the terminal, and nothing in
it is an error. Each number is read as the nearest double if it is not astronomic. -/
theorem tokenize_document {v : Value} {source : String} (document : Padded v source.toList) :
    (tokenize source).map Located.token = v.tokens ++ [.terminal] ∧
      (∀ t ∈ tokenize source, t.isError = false) ∧
      ∀ n : Number, n.parts.Bounded → n.value.IsNearest n.absolute :=
  ⟨tokens_padded document, isError_padded document, fun n => Parts.decimal_isNearest n.formed⟩

def Number.minusHundredFifty : Number where
  negative := true
  parts := ⟨['1'], some ['5'], some ⟨'e', some '+', ['2']⟩⟩
  formed := by
    refine ⟨by decide, List.all_eq_true.mp rfl, ?_, ?_⟩
    · rintro _ ⟨⟩
      exact List.all_eq_true.mp rfl
    · rintro _ ⟨⟩
      exact ⟨rfl, by simp; decide, List.all_eq_true.mp rfl⟩
  leading := by simp
  fraction := by simp
  exponent := by simp

/-- White space, a pair of escaped units, a signed number and an array in an array. -/
theorem tokenize_document_nested :
    let source := "\n\x7b\"k\\ud83D\\uDE00\" :[ -1.5e+2 , true, []]\t\x7d"
    Padded (.object [("k😀", .array [.number .minusHundredFifty, .bool true, .array []])])
        source.toList ∧
      ∃ x, x.IsNearest 150 ∧ (tokenize source).map Located.token =
        [.symbol .leftBrace, .string "k😀", .symbol .colon, .symbol .leftBracket, .symbol .minus,
          .number x, .symbol .comma, .identifier "true", .symbol .comma, .symbol .leftBracket,
          .symbol .rightBracket, .symbol .rightBracket, .symbol .rightBrace, .terminal] := by
  intro source
  have blank (text : List Char) (all : text.all isBlank = true) : Blank text :=
    fun c member => List.all_eq_true.mp all c member
  have high : WritesUnit ['d', '8', '3', 'D'] 0xD83D := ⟨rfl, List.all_eq_true.mp rfl, rfl⟩
  have low : WritesUnit ['D', 'E', '0', '0'] 0xDE00 := ⟨rfl, List.all_eq_true.mp rfl, rfl⟩
  have spelt : Spells ['k', '😀'] "k\\ud83D\\uDE00".toList :=
    .raw (by decide) (by decide) (by decide) (.pair (by decide) high low .nil)
  have spells : Spells "k😀".toList "k\\ud83D\\uDE00".toList := spelt
  have number : Padded (.number .minusHundredFifty) " -1.5e+2 ".toList :=
    .mk (blank [' '] (by decide)) .number (blank [' '] (by decide))
  have word : Padded (.bool true) " true".toList :=
    .mk (blank [' '] (by decide)) .true (blank [] (by decide))
  have empty : Padded (.array []) " []".toList :=
    .mk (blank [' '] (by decide)) (.noItems (blank [] (by decide))) (blank [] (by decide))
  have array : Padded (.array [.number .minusHundredFifty, .bool true, .array []])
      "[ -1.5e+2 , true, []]\t".toList :=
    .mk (blank [] (by decide)) (.array (.more number (.more word (.last empty))))
      (blank ['\t'] (by decide))
  have member : Members _ "\"k\\ud83D\\uDE00\" :[ -1.5e+2 , true, []]\t".toList :=
    .last (blank [] (by decide)) (.mk spells) (blank [' '] (by decide)) array
  have chars : source.toList = ['\n'] ++ ('\x7b' ::
      ("\"k\\ud83D\\uDE00\" :[ -1.5e+2 , true, []]\t".toList ++ ['\x7d']) ++ []) := by
    decide +kernel
  have document := Padded.mk (blank ['\n'] (by decide)) (.object member) (blank [] (by decide))
  rw [← chars] at document
  obtain ⟨tokens, -, nearest⟩ := tokenize_document document
  have absolute : Number.minusHundredFifty.absolute = 150 := by
    have digits : Decimal.value Number.minusHundredFifty.parts.digits = 15 := by decide
    have power : Number.minusHundredFifty.parts.power = 1 := by decide
    rw [Number.absolute, Parts.absolute, digits, power]
    norm_num
  exact ⟨document, _, absolute ▸ nearest _ (Or.inl (by decide)), tokens⟩

/-- The number one with zeros behind it and an exponent that is not read in full. -/
def Number.tens (zeros : Nat) : Number where
  negative := false
  parts := ⟨'1' :: List.replicate zeros '0', none, some ⟨'e', some '-', "655370".toList⟩⟩
  formed := by
    refine ⟨by simp, fun c member => ?_, nofun, ?_⟩
    · rcases List.mem_cons.mp member with rfl | zero
      · rfl
      · rw [List.eq_of_mem_replicate zero]
        rfl
    · rintro _ ⟨⟩
      exact ⟨rfl, by simp; decide, List.all_eq_true.mp rfl⟩
  leading := by simp
  fraction := by simp
  exponent := by simp

theorem digits_tens (zeros : Nat) :
    Decimal.value (Number.tens zeros).parts.digits = 10 ^ zeros := by
  have digits : (Number.tens zeros).parts.digits = ['1'] ++ List.replicate zeros '0' :=
    List.append_nil _
  have one : Decimal.value ['1'] = 1 := by decide
  rw [digits, Decimal.value_append, Decimal.value_replicate, one, List.length_replicate,
    Nat.one_mul, Nat.add_zero]

theorem absolute_tens (zeros : Nat) :
    (Number.tens zeros).absolute = 10 ^ (zeros - 655370 : ℤ) := by
  have power : (Number.tens zeros).parts.power = -655370 := rfl
  rw [Number.absolute, Parts.absolute, digits_tens, power, Nat.cast_pow, ← zpow_natCast,
    Nat.cast_ofNat, ← zpow_add₀ (by norm_num), sub_eq_add_neg]

theorem value_tens (zeros : Nat) :
    (Number.tens zeros).value.IsNearest (10 ^ (zeros - 65537 : ℤ)) := by
  have nearest := (Number.tens zeros).parts.decimal.value_isNearest
  have power : (Number.tens zeros).parts.decimal.power = -655370 := rfl
  have clipped : Decimal.clipExponent (-655370) = -65537 := by
    rw [Decimal.clipExponent, Decimal.clip, Decimal.clip]
    rfl
  rw [Parts.whole_decimal, digits_tens, power, clipped, Nat.cast_pow, ← zpow_natCast,
    Nat.cast_ofNat, ← zpow_add₀ (by norm_num), ← sub_eq_add_neg] at nearest
  exact nearest

theorem padded_tens (zeros : Nat) : Padded (.number (.tens zeros))
    ('1' :: (List.replicate zeros '0' ++ "e-655370".toList)) := by
  have padded : Padded (.number (.tens zeros)) ([] ++ ((Number.tens zeros).chars ++ [])) :=
    .mk nofun .number nofun
  rw [List.nil_append, List.append_nil] at padded
  exact padded

/-- A number far below all doubles that is read as a large one: of its exponent the last digit is
left out, which its zeros do not make up for. -/
theorem tens_misread :
    let source := String.ofList ('1' :: (List.replicate 65560 '0' ++ "e-655370".toList))
    ∃ n : Number, Padded (.number n) source.toList ∧ n.absolute = 10 ^ (-589810 : ℤ) ∧
      ∃ x : Binary64, (tokenize source).map Located.token = [.number x, .terminal] ∧
        x.IsNearest (10 ^ 23) ∧ ¬x.IsNearest n.absolute := by
  intro source
  have padded : Padded (.number (.tens 65560)) source.toList := by
    rw [String.toList_ofList]
    exact padded_tens 65560
  have absolute : (Number.tens 65560).absolute = 10 ^ (-589810 : ℤ) := by
    rw [absolute_tens]
    norm_num
  have large : (Number.tens 65560).value.IsNearest (10 ^ 23) := by
    have read := value_tens 65560
    norm_num at read
    norm_num
    exact read
  refine ⟨_, padded, absolute, _, tokens_padded padded, large, fun small => ?_⟩
  have tiny : (10 : ℚ) ^ (-589810 : ℤ) < 2 ^ (-1075 : ℤ) :=
    (zpow_le_zpow_right₀ (by norm_num) (by decide)).trans_lt ten_zpow_lt
  rw [absolute] at small
  rw [small.unique (closest_zero (by positivity) tiny).isNearest] at large
  -- one is nearer to the large number than zero is
  have one : (ofNat (1 * 2 ^ 0)).IsExact (1 * 2 ^ 0 : Nat) := ofNat_isExact (by decide) (by decide)
  have near := large.nearest _ one.isNaN
  rw [one.absolute, absolute_ofMagnitude (Nat.zero_le _), absoluteOf_zero] at near
  norm_num at near

end DemandLex.JsonText
