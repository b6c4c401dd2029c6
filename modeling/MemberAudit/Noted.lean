/-
Work that may fail and takes notes. What was noted before a failure stays noted.
-/
namespace MemberAudit

/-- A result, or none where the work failed, with the notes taken on the way. -/
structure Noted (ν : Type) (α : Type) where
  notes : List ν
  result? : Option α
  deriving Repr

namespace Noted

variable {ν α β : Type}

/-- Failure. -/
def fail : Noted ν α := ⟨[], none⟩

/-- Taking one note. -/
def note (n : ν) : Noted ν Unit := ⟨[n], some ()⟩

/-- The result if there is one, else failure. -/
def ofOption : Option α → Noted ν α := fun result? => ⟨[], result?⟩

instance : Monad (Noted ν) where
  pure a := ⟨[], some a⟩
  bind x f :=
    match x.result? with
    | none => ⟨x.notes, none⟩
    | some a => ⟨x.notes ++ (f a).notes, (f a).result?⟩

@[simp] theorem notes_pure (a : α) : (pure a : Noted ν α).notes = [] := rfl

@[simp] theorem result?_pure (a : α) : (pure a : Noted ν α).result? = some a := rfl

@[simp] theorem result?_bind (x : Noted ν α) (f : α → Noted ν β) :
    (x >>= f).result? = x.result?.bind fun a => (f a).result? := by
  cases h : x.result? <;> simp [bind, h]

end Noted
end MemberAudit
