/-!
# Enumerations known by name

Registers, predicates, condition codes and the like are finite types whose members are
known by a fixed identifier, both in stored modules and in diagnostics. `Named` gives the
list of members and their identifiers; `Named.find?` reads an identifier back.
-/

namespace InstSelect

/-- A finite type whose members have identifiers. -/
class Named (α : Type) where
  /-- All members, in declaration order. -/
  members : List α
  /-- The identifier of a member. -/
  ident : α → String

namespace Named

/-- The member with identifier `text`. -/
def find? {α : Type} [Named α] (text : String) : Option α :=
  (members : List α).find? fun a => ident a == text

end Named

end InstSelect
