import InstSelect.Numeral.Decimal

/-!
# JSON values

A JSON value keeps what a reader of stored modules has to tell apart: integers apart from
numbers written with a fraction or an exponent, the order of members, and repeated keys. A
value can also be `unreadable`: well formed as text, but without a meaning, so that it may
be skipped but never decoded.
-/

namespace InstSelect

open Numeral

/-- A JSON value. -/
inductive Json
  | null
  | bool (value : Bool)
  | int (value : Int)
  /-- A number written with a fraction or an exponent, or as minus zero. -/
  | decimal (value : Decimal)
  | str (value : String)
  | arr (items : List Json)
  | obj (members : List (String × Json))
  /-- Text that nests too deep, or holds half of a surrogate pair. -/
  | unreadable
deriving Inhabited

namespace Json

mutual

/-- Nesting depth: 0 for a value without parts. -/
def depth : Json → Nat
  | arr items => depths items + 1
  | obj members => memberDepths members + 1
  | _ => 0

/-- The largest depth of a list of values. -/
def depths : List Json → Nat
  | [] => 0
  | item :: rest => max item.depth (depths rest)

/-- The largest depth of a list of members. -/
def memberDepths : List (String × Json) → Nat
  | [] => 0
  | (_, value) :: rest => max value.depth (memberDepths rest)

end

/-! ## Writing -/

/-- A character inside a JSON string. -/
def escapedChar (c : Char) : String :=
  if c = '"' then "\\\""
  else if c = '\\' then "\\\\"
  else if c = '\n' then "\\n"
  else if c = '\r' then "\\r"
  else if c = '\t' then "\\t"
  else if c.toNat = 8 then "\\b"
  else if c.toNat = 12 then "\\f"
  else if c.toNat < 32 then
    "\\u00" ++ String.ofList [Nat.digitChar (c.toNat / 16), Nat.digitChar (c.toNat % 16)]
  else String.singleton c

/-- A JSON string with its quotes. -/
def quote (s : String) : String :=
  "\"" ++ String.join (s.toList.map escapedChar) ++ "\""

/-- The text of a value without parts. -/
def scalarText : Json → String
  | null | unreadable => "null"
  | bool value => if value then "true" else "false"
  | int value => toString value
  | decimal value => value.text
  | str value => quote value
  | arr _ => "[]"
  | obj _ => "\x7b\x7d"

mutual

/-- Appends the text of a value in which nothing is spaced out. -/
def writeCompact (out : String) : Json → String
  | arr items => (compactItems (out ++ "[") true items) ++ "]"
  | obj members => (compactMembers (out ++ "\x7b") true members) ++ "\x7d"
  | scalar => out ++ scalar.scalarText

/-- Appends items, separated by commas. -/
def compactItems (out : String) (first : Bool) : List Json → String
  | [] => out
  | item :: rest =>
    compactItems (writeCompact (if first then out else out ++ ",") item) false rest

/-- Appends members, separated by commas. -/
def compactMembers (out : String) (first : Bool) : List (String × Json) → String
  | [] => out
  | (key, value) :: rest =>
    let out := (if first then out else out ++ ",") ++ quote key ++ ":"
    compactMembers (writeCompact out value) false rest

end

/-- The text of a value on one line. -/
def compact (j : Json) : String := writeCompact "" j

/-- A new line at a nesting depth, two spaces per level. -/
def newLine (level : Nat) : String :=
  "\n" ++ String.ofList (List.replicate (2 * level) ' ')

mutual

/-- Appends the indented text of a value. -/
def writePretty (out : String) (level : Nat) : Json → String
  | arr (item :: rest) =>
    (prettyItems (out ++ "[") (level + 1) true (item :: rest)) ++ newLine level ++ "]"
  | obj (member :: rest) =>
    (prettyMembers (out ++ "\x7b") (level + 1) true (member :: rest)) ++
      newLine level ++ "\x7d"
  | scalar => out ++ scalar.scalarText

/-- Appends items, one per line. -/
def prettyItems (out : String) (level : Nat) (first : Bool) : List Json → String
  | [] => out
  | item :: rest =>
    let out := (if first then out else out ++ ",") ++ newLine level
    prettyItems (writePretty out level item) level false rest

/-- Appends members, one per line. -/
def prettyMembers (out : String) (level : Nat)
    (first : Bool) : List (String × Json) → String
  | [] => out
  | (key, value) :: rest =>
    let out := (if first then out else out ++ ",") ++ newLine level ++ quote key ++ ": "
    prettyMembers (writePretty out level value) level false rest

end

/--
The text of a value over several lines, two spaces per level, `[]` for an empty list.
-/
def pretty (j : Json) : String := writePretty "" 0 j

end Json

end InstSelect
