/-!
# Bindings

A finite map kept as the list of its bindings, newest first. Selection only ever binds
keys and looks them up.
-/

namespace InstSelect.Lowering

/-- A finite map from keys to values. -/
structure Bindings (κ α : Type) where
  entries : List (κ × α)
deriving DecidableEq, Repr

namespace Bindings

variable {κ α : Type}

/-- The map without bindings. -/
def empty : Bindings κ α := ⟨[]⟩

variable [DecidableEq κ]

/-- The value bound to a key. -/
def find? (b : Bindings κ α) (key : κ) : Option α :=
  (b.entries.find? fun e => e.1 = key).map Prod.snd

/-- Binds a key, hiding any earlier binding of it. -/
def insert (b : Bindings κ α) (key : κ) (value : α) : Bindings κ α :=
  ⟨(key, value) :: b.entries⟩

@[simp]
theorem find?_empty (key : κ) : (empty : Bindings κ α).find? key = none := rfl

theorem find?_insert (b : Bindings κ α) (key : κ) (value : α) (other : κ) :
    (b.insert key value).find? other =
      if key = other then some value else b.find? other := by
  by_cases h : key = other <;> simp [find?, insert, h]

@[simp]
theorem find?_insert_self (b : Bindings κ α) (key : κ) (value : α) :
    (b.insert key value).find? key = some value := by
  simp [find?_insert]

end Bindings

end InstSelect.Lowering
