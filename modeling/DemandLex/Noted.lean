/-! Results that carry the notes taken on the way to them. -/

namespace DemandLex

universe u

/-- A value together with the notes taken while computing it, oldest first. -/
structure Noted (ω : Type) (α : Type u) where
  notes : List ω
  value : α

namespace Noted
variable {ω : Type} {α β : Type u}

def quiet (value : α) : Noted ω α := ⟨[], value⟩

def note (entry : ω) : Noted ω Unit := ⟨[entry], ()⟩

instance : Monad (Noted ω) where
  pure := quiet
  bind first next :=
    let second := next first.value
    ⟨first.notes ++ second.notes, second.value⟩

@[simp] theorem notes_pure (value : α) : (pure value : Noted ω α).notes = [] := rfl

@[simp] theorem value_pure (value : α) : (pure value : Noted ω α).value = value := rfl

@[simp] theorem notes_bind (first : Noted ω α) (next : α → Noted ω β) :
    (first >>= next).notes = first.notes ++ (next first.value).notes := rfl

@[simp] theorem value_bind (first : Noted ω α) (next : α → Noted ω β) :
    (first >>= next).value = (next first.value).value := rfl

@[ext] theorem ext {left right : Noted ω α} (notes : left.notes = right.notes)
    (value : left.value = right.value) : left = right := by
  cases left
  cases right
  simp_all

instance : LawfulMonad (Noted ω) where
  map_const := rfl
  id_map _ := ext (List.append_nil _) rfl
  seqLeft_eq _ _ := ext (by simp [Seq.seq, SeqLeft.seqLeft, Functor.map, quiet]) rfl
  seqRight_eq _ _ := ext (by simp [Seq.seq, SeqRight.seqRight, Functor.map, quiet]) rfl
  pure_seq _ _ := rfl
  bind_pure_comp _ _ := rfl
  bind_map _ _ := rfl
  pure_bind _ _ := rfl
  bind_assoc _ _ _ := ext (List.append_assoc _ _ _) rfl

end Noted

end DemandLex
