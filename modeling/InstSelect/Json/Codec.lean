import InstSelect.Named
import InstSelect.Json.Value

/-!
# Stored forms

How values are written as JSON and read back. Records are objects with one member per
field, or, when read, arrays of the fields in order; unknown members are skipped, and a
field given twice is refused. Constructors without parameters are strings; constructors
with parameters are objects with one member named after the constructor.
-/

namespace InstSelect

/-- Types with a stored form. -/
class Stored (α : Type) where
  encode : α → Json
  decode? : Json → Option α

export Stored (encode decode?)

namespace Json

/-- An integer in a half-open range. -/
def intBetween? (low high : Int) : Json → Option Int
  | int n => if low ≤ n ∧ n < high then some n else none
  | _ => none

def items? : Json → Option (List Json)
  | arr items => some items
  | _ => none

/-! ## Records -/

/-- No name is the key of two members. -/
def keysUnique (names : List String) (members : List (String × Json)) : Bool :=
  names.all fun name => (members.filter fun m => m.1 == name).length ≤ 1

/-- What is given for each of the names, by key or by position. -/
def fields? (names : List String) : Json → Option (List (Option Json))
  | arr items => if items.length = names.length then some (items.map some) else none
  | obj members =>
    if keysUnique names members then some (names.map fun name => members.lookup name)
      else none
  | _ => none

/-- Like `fields?`, but an array may leave out fields at its end. -/
def leadingFields? (names : List String) : Json → Option (List (Option Json))
  | arr items =>
    if items.length ≤ names.length then
      some (items.map some ++ List.replicate (names.length - items.length) none)
    else none
  | j => fields? names j

/--
What is given for the named fields of a constructor: by key, or also by position if
allowed.
-/
def constructorFields? (positional : Bool) (names : List String) (j : Json) :
    Option (List (Option Json)) :=
  match j, positional with
  | arr _, false => none
  | j, _ => j.fields? names

/-- A field that must be given. -/
def required {α : Type} [Stored α] (field : Option Json) : Option α :=
  field.bind decode?

/-- A field that takes a default when it is not given. -/
def withDefault {α : Type} [Stored α] (default : α) : Option Json → Option α
  | none => some default
  | some j => decode? j

/-! ## Constructors -/

/-- A constructor with one parameter. -/
def tagged (tag : String) (payload : Json) : Json := obj [(tag, payload)]

/-- The constructor's name and its parameter, if it has one; a `null` is no parameter. -/
def variant? : Json → Option (String × Option Json)
  | str tag => some (tag, none)
  | obj [(tag, payload)] => some (tag, some payload)
  | _ => none

/-- A constructor without parameters, by name or with a `null`. -/
def unitTag? : Json → Option String
  | str tag => some tag
  | obj [(tag, null)] => some tag
  | _ => none

end Json

/-! ## Basic types -/

open Json

instance : Stored Bool where
  encode := .bool
  decode?
    | .bool b => some b
    | _ => none

instance : Stored String where
  encode := .str
  decode?
    | .str s => some s
    | _ => none

instance : Stored UInt8 where
  encode n := .int n.toNat
  decode? j := (j.intBetween? 0 UInt8.size).map fun n => UInt8.ofNat n.toNat

instance : Stored UInt32 where
  encode n := .int n.toNat
  decode? j := (j.intBetween? 0 UInt32.size).map fun n => UInt32.ofNat n.toNat

instance : Stored UInt64 where
  encode n := .int n.toNat
  decode? j := (j.intBetween? 0 UInt64.size).map fun n => UInt64.ofNat n.toNat

instance : Stored Int32 where
  encode n := .int n.toInt
  decode? j := (j.intBetween? (-(1 <<< 31)) (1 <<< 31)).map Int32.ofInt

instance : Stored Int64 where
  encode n := .int n.toInt
  decode? j := (j.intBetween? (-(1 <<< 63)) (1 <<< 63)).map Int64.ofInt

instance {α : Type} [Stored α] : Stored (List α) where
  encode items := .arr (items.map encode)
  decode? j := do (← j.items?).mapM decode?

instance {α : Type} [Stored α] : Stored (Array α) where
  encode items := encode items.toList
  decode? j := (decode? j : Option (List α)).map List.toArray

instance {α : Type} [Stored α] : Stored (Option α) where
  encode
    | none => .null
    | some a => encode a
  decode?
    | .null => some none
    | j => (decode? j).map some

/-- Enumerations are stored by identifier. -/
instance {α : Type} [Named α] : Stored α where
  encode a := .str (Named.ident a)
  decode? j := j.unitTag?.bind Named.find?

end InstSelect
