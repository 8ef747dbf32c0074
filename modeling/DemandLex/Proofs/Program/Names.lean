import DemandLex.Program.Basic

/-! Looking things up by their names. -/

namespace DemandLex.Program.Names

universe u v w

variable {α : Type u} {β : Type v} {γ : Type w} {names : Names α} {name other : String}

theorem find_eq_ok {next : α → Except Failure β} {result : β} :
    names.find name next = .ok result ↔
      ∃ found, names.lookup name = some found ∧ next found = .ok result := by
  rw [find]
  cases names.lookup name <;> simp

theorem findAll_eq_ok {wanted : List String} {next : List α → Except Failure β} {result : β}
    (ok : names.findAll wanted next = .ok result) :
    ∃ things, (∀ thing ∈ things, ∃ name, names.lookup name = some thing) ∧
      next things = .ok result := by
  induction wanted generalizing next with
  | nil => exact ⟨[], fun thing none => (List.not_mem_nil none).elim, ok⟩
  | cons name later ih =>
    obtain ⟨first, found, ok⟩ := find_eq_ok.mp ok
    obtain ⟨others, among, ok⟩ := ih ok
    refine ⟨first :: others, fun thing inside => ?_, ok⟩
    rcases List.mem_cons.mp inside with rfl | inside
    · exact ⟨name, found⟩
    · exact among thing inside

theorem lookup_insert {thing : α} :
    (names.insert name thing).lookup other =
      if other = name then some thing else names.lookup other := by
  rw [insert, List.lookup_cons]
  by_cases same : other = name
  · rw [if_pos same, same, beq_self_eq_true]
  · rw [if_neg same, beq_false_of_ne same]

theorem lookup_erase (apart : other ≠ name) :
    (names.erase name).lookup other = names.lookup other := by
  induction names with
  | nil => rfl
  | cons entry later ih =>
    rw [erase, List.filter_cons]
    by_cases same : entry.1 = name
    · rw [if_neg (by simpa using same), List.lookup_cons, beq_false_of_ne (same ▸ apart)]
      exact ih
    · rw [if_pos (by simpa using same), List.lookup_cons, List.lookup_cons]
      cases other == entry.1 with
      | true => rfl
      | false => exact ih

theorem mem_of_lookup {thing : α} (found : names.lookup name = some thing) :
    (name, thing) ∈ names := by
  induction names with
  | nil => cases found
  | cons entry later ih =>
    obtain ⟨first, thing'⟩ := entry
    rw [List.lookup_cons] at found
    split at found
    · next same =>
      cases found
      rw [beq_iff_eq.mp same]
      exact List.mem_cons_self
    · exact List.mem_cons_of_mem _ (ih found)

section Map
variable {f : α → β}

def mapThings (f : α → β) (names : Names α) : Names β := List.map (fun entry => (entry.1, f entry.2)) names

theorem lookup_mapThings : (names.mapThings f).lookup name = (names.lookup name).map f := by
  induction names with
  | nil => rfl
  | cons entry later ih =>
    rw [mapThings, List.map_cons, List.lookup_cons, List.lookup_cons]
    cases name == entry.1 with
    | true => rfl
    | false => exact ih

theorem find_mapThings {next : β → Except Failure γ} :
    (names.mapThings f).find name next = names.find name fun thing => next (f thing) := by
  rw [find, find, lookup_mapThings]
  cases names.lookup name <;> rfl

theorem findAll_mapThings {wanted : List String} {next : List β → Except Failure γ} :
    (names.mapThings f).findAll wanted next = names.findAll wanted fun things => next (things.map f) := by
  induction wanted generalizing next with
  | nil => rfl
  | cons name later ih =>
    rw [findAll, findAll, find_mapThings]
    simp only [ih, List.map_cons]

theorem erase_mapThings : (names.mapThings f).erase name = (names.erase name).mapThings f := by
  simp only [erase, mapThings, List.filter_map]
  rfl

theorem contains_mapThings : (names.mapThings f).contains name = names.contains name := by
  simp only [contains, mapThings, List.any_map]
  rfl

end Map

end DemandLex.Program.Names
