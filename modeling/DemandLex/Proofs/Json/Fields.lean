import DemandLex.Proofs.Json.Compact

/-! The tokens behind the keys of a text of JSON: they are those of the values of the fields with
these names, and no string in another place is taken for a key. -/

namespace DemandLex

def behindColon : List Token → List Token
  | .symbol .colon :: value :: _ => [value]
  | _ => []

/-- The tokens that stand behind a key and its colon, in order. -/
def behindKey (key : String) : List Token → List Token
  | [] => []
  | t :: later => (if t = .string key then behindColon later else []) ++ behindKey key later

def NoColon (rest : List Token) : Prop := rest.head? ≠ some (.symbol .colon)

section Tokens
variable {key name : String} {t value : Token} {rest : List Token}

theorem noColon_symbol {s : Symbol} (other : s ≠ .colon) : NoColon (.symbol s :: rest) := by
  simpa [NoColon] using other

theorem behindColon_eq_nil (apart : NoColon rest) : behindColon rest = [] := by
  rw [behindColon]
  rintro value later rfl
  exact absurd rfl apart

theorem behindKey_apart (apart : NoColon rest) : behindKey key (t :: rest) = behindKey key rest := by
  rw [behindKey, behindColon_eq_nil apart, ite_self, List.nil_append]

theorem behindKey_symbol (s : Symbol) : behindKey key (.symbol s :: rest) = behindKey key rest := by
  rw [behindKey, if_neg nofun, List.nil_append]

theorem behindKey_name : behindKey key (.string name :: .symbol .colon :: value :: rest) =
    (if name = key then [value] else []) ++ behindKey key (value :: rest) := by
  rw [behindKey, behindKey_symbol, behindColon]
  simp

end Tokens

namespace Json

mutual

/-- The first tokens of the values of all fields with a name, in the order of the text. -/
def named (key : String) : Json → List Token
  | array items => namedItems key items
  | object fields => namedFields key fields
  | _ => []

def namedItems (key : String) : List Json → List Token
  | [] => []
  | item :: rest => item.named key ++ namedItems key rest

def namedFields (key : String) : List (String × Json) → List Token
  | [] => []
  | (name, value) :: rest =>
    (if name = key then value.tokens.head?.toList else []) ++
      (value.named key ++ namedFields key rest)

end

theorem behindKey_field {key name : String} {value : Json} {rest : List Token} :
    behindKey key (.string name :: .symbol .colon :: (value.tokens ++ rest)) =
      (if name = key then value.tokens.head?.toList else []) ++
        behindKey key (value.tokens ++ rest) := by
  obtain ⟨t, later, tokens⟩ : ∃ t later, value.tokens = t :: later := by
    cases value <;> exact ⟨_, _, rfl⟩
  rw [tokens]
  exact behindKey_name

theorem namedItems_map {α : Type} {f : α → Json} (key : String) (values : List α) :
    namedItems key (values.map f) = values.flatMap fun value => (f value).named key := by
  induction values with
  | nil => rfl
  | cons value later ih => rw [List.map_cons, namedItems, ih, List.flatMap_cons]

-- The recursion is on the value; behind items and fields stands the bracket that closes them.
mutual

theorem behindKey_tokens (key : String) : ∀ (j : Json) {rest : List Token}, NoColon rest →
    behindKey key (j.tokens ++ rest) = j.named key ++ behindKey key rest
  | null, _, apart => behindKey_apart apart
  | bool _, _, apart => behindKey_apart apart
  | nat _, _, apart => behindKey_apart apart
  | float _, _, apart => behindKey_apart apart
  | string _, _, apart => behindKey_apart apart
  | array items, rest, _ => by
    rw [tokens, List.cons_append, List.append_assoc, List.singleton_append, behindKey_symbol,
      behindKey_items, named]
  | object fields, rest, _ => by
    rw [tokens, List.cons_append, List.append_assoc, List.singleton_append, behindKey_symbol,
      behindKey_fields, named]

theorem behindKey_items (key : String) : ∀ (items : List Json) {rest : List Token},
    behindKey key (itemTokens items ++ .symbol .rightBracket :: rest) =
      namedItems key items ++ behindKey key rest
  | [], _ => behindKey_symbol _
  | [item], rest => by
    rw [itemTokens, behindKey_tokens key item (noColon_symbol (by decide)), behindKey_symbol]
    simp [namedItems]
  | item :: next :: rest, later => by
    have tokens : itemTokens (item :: next :: rest) =
        item.tokens ++ .symbol .comma :: itemTokens (next :: rest) := rfl
    rw [tokens, List.append_assoc, List.cons_append,
      behindKey_tokens key item (noColon_symbol (by decide)), behindKey_symbol,
      behindKey_items key (next :: rest), ← List.append_assoc]
    rfl

theorem behindKey_fields (key : String) : ∀ (fields : List (String × Json)) {rest : List Token},
    behindKey key (fieldTokens fields ++ .symbol .rightBrace :: rest) =
      namedFields key fields ++ behindKey key rest
  | [], _ => behindKey_symbol _
  | [(name, value)], rest => by
    rw [fieldTokens, List.cons_append, List.cons_append, behindKey_field,
      behindKey_tokens key value (noColon_symbol (by decide)), behindKey_symbol]
    simp [namedFields]
  | (name, value) :: next :: rest, later => by
    have tokens : fieldTokens ((name, value) :: next :: rest) = .string name :: .symbol .colon ::
        (value.tokens ++ .symbol .comma :: fieldTokens (next :: rest)) := rfl
    rw [tokens, List.cons_append, List.cons_append, List.append_assoc, List.cons_append,
      behindKey_field, behindKey_tokens key value (noColon_symbol (by decide)), behindKey_symbol,
      behindKey_fields key (next :: rest)]
    simp [namedFields]

end

theorem behindKey_print {print : Json → String} (prints : Prints print) {j : Json} (plain : j.Plain)
    (key : String) : behindKey key ((tokenize (print j)).map Located.token) = j.named key := by
  rw [(tokenize_print prints plain).1, behindKey_tokens key j (by simp [NoColon])]
  simp [behindKey]

end Json

end DemandLex
