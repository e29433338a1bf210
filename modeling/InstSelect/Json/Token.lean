import InstSelect.Json.Value

/-!
# JSON tokens

Strict JSON text as a sequence of tokens. Strings may hold no raw control characters;
numbers have no leading zeros and at least one digit after a point or an exponent mark. A
string with half of a surrogate pair is still a token, but one without a text.
-/

namespace InstSelect.Json

open Numeral

/-- The tokens of JSON text. -/
inductive Token
  | openArr
  | closeArr
  | openObj
  | closeObj
  | comma
  | colon
  /-- A number or a literal. -/
  | scalar (value : Json)
  /-- A string; `none` if it has no text. -/
  | text (value : Option String)

/-! ## Strings -/

/-- A part of a string: a character, or a 16-bit unit written as `\uXXXX`. -/
inductive Piece
  | char (c : Char)
  | unit (n : Nat)
deriving DecidableEq, Repr

/-- The value of a hexadecimal digit. -/
def hexDigit? (c : Char) : Option Nat :=
  if c.isDigit then some (c.toNat - '0'.toNat)
  else if 'a' ≤ c ∧ c ≤ 'f' then some (c.toNat - 'a'.toNat + 10)
  else if 'A' ≤ c ∧ c ≤ 'F' then some (c.toNat - 'A'.toNat + 10)
  else none

/-- The value of four hexadecimal digits. -/
def hexUnit? (a b c d : Char) : Option Nat := do
  let a ← hexDigit? a
  let b ← hexDigit? b
  let c ← hexDigit? c
  let d ← hexDigit? d
  pure (((a * 16 + b) * 16 + c) * 16 + d)

/-- The character that a one-letter escape stands for. -/
def simpleEscape? (c : Char) : Option Char :=
  match c with
  | '"' => some '"'
  | '\\' => some '\\'
  | '/' => some '/'
  | 'b' => some (Char.ofNat 8)
  | 'f' => some (Char.ofNat 12)
  | 'n' => some '\n'
  | 'r' => some '\r'
  | 't' => some '\t'
  | _ => none

/-- Reads a string up to its closing quote; the parts come in reverse. -/
def stringBody (parts : List Piece) : List Char → Option (List Piece × List Char)
  | [] => none
  | '"' :: rest => some (parts, rest)
  | '\\' :: 'u' :: a :: b :: c :: d :: rest =>
    match hexUnit? a b c d with
    | some n => stringBody (.unit n :: parts) rest
    | none => none
  | '\\' :: c :: rest =>
    match simpleEscape? c with
    | some e => stringBody (.char e :: parts) rest
    | none => none
  | c :: rest =>
    if c.toNat < 32 ∨ c = '\\' then none else stringBody (.char c :: parts) rest

theorem length_le_of_stringBody {parts done : List Piece} {cs rest : List Char}
    (h : stringBody parts cs = some (done, rest)) : rest.length ≤ cs.length := by
  fun_induction stringBody parts cs with
  | case2 => simp_all
  | case3 parts a b c d tail n hn ih =>
    have := ih h
    simp only [List.length_cons]
    omega
  | case5 parts c tail _ e he ih =>
    have := ih h
    simp only [List.length_cons]
    omega
  | case8 parts c tail _ _ _ hc ih => exact Nat.le_succ_of_le (ih h)
  | _ => contradiction

/-- The text of a string from its parts in reverse; a surrogate pair is one character. -/
def assemble : List Piece → List Char → Option (List Char)
  | [], cs => some cs
  | .char c :: rest, cs => assemble rest (c :: cs)
  | .unit low :: rest, cs =>
    if 0xDC00 ≤ low ∧ low < 0xE000 then
      match rest with
      | .unit high :: rest =>
        if 0xD800 ≤ high ∧ high < 0xDC00 then
          assemble rest
            (Char.ofNat (0x10000 + (high - 0xD800) * 0x400 + (low - 0xDC00)) :: cs)
        else none
      | _ => none
    else if 0xD800 ≤ low ∧ low < 0xDC00 then none
    else assemble rest (Char.ofNat low :: cs)

/-- What remains of a text after a part of it. -/
abbrev Suffix (cs : List Char) := { rest : List Char // rest.length ≤ cs.length }

/-- A remainder of a shorter text is one of the longer text. -/
def Suffix.weaken {cs ds : List Char} (h : cs.length ≤ ds.length) (s : Suffix cs) :
    Suffix ds :=
  ⟨s.1, Nat.le_trans s.2 h⟩

/-- A string after its opening quote. -/
def stringToken (cs : List Char) : Option (Token × Suffix cs) :=
  match h : stringBody [] cs with
  | some (parts, rest) =>
    some (.text ((assemble parts []).map String.ofList),
      ⟨rest, length_le_of_stringBody h⟩)
  | none => none

/-! ## Numbers -/

def digitValue (c : Char) : Nat := c.toNat - '0'.toNat

/-- A run of digits and what follows it. -/
def digitRun (cs : List Char) : List Nat × Suffix cs :=
  ((cs.takeWhile Char.isDigit).map digitValue,
    ⟨cs.dropWhile Char.isDigit, (List.dropWhile_sublist _).length_le⟩)

/-- The digits after a point, if there is one; there must be some. -/
def fractionPart (cs : List Char) : Option (Option (List Nat) × Suffix cs) :=
  match cs with
  | '.' :: rest =>
    match digitRun rest with
    | ([], _) => none
    | (digits, s) => some (some digits, s.weaken (by simp))
  | cs => some (none, ⟨cs, Nat.le_refl _⟩)

def digitsValue (digits : List Nat) : Nat := digits.foldl (fun n d => n * 10 + d) 0

/-- The digits of an exponent after its sign; there must be some. -/
def exponentDigits (negative : Bool) (cs : List Char) : Option (Option Int × Suffix cs) :=
  match digitRun cs with
  | ([], _) => none
  | (digits, s) =>
    let n : Int := digitsValue digits
    some (some (if negative then -n else n), s)

/-- The exponent, if there is an exponent mark. -/
def exponentPart (cs : List Char) : Option (Option Int × Suffix cs) :=
  match cs with
  | 'e' :: '+' :: rest | 'E' :: '+' :: rest => do
    let (e, s) ← exponentDigits false rest
    pure (e, s.weaken (by simp; omega))
  | 'e' :: '-' :: rest | 'E' :: '-' :: rest => do
    let (e, s) ← exponentDigits true rest
    pure (e, s.weaken (by simp; omega))
  | 'e' :: rest | 'E' :: rest => do
    let (e, s) ← exponentDigits false rest
    pure (e, s.weaken (by simp))
  | cs => some (none, ⟨cs, Nat.le_refl _⟩)

/-- The value of a number's parts; minus zero is not an integer. -/
def numberOf (negative : Bool) (whole : List Nat) (fraction : Option (List Nat))
    (exponent : Option Int) : Json :=
  let n : Int := digitsValue whole
  match fraction, exponent with
  | none, none =>
    if negative then (if n = 0 then .decimal ⟨true, [0], [], 0⟩ else .int (-n))
      else .int n
  | _, _ => .decimal ⟨negative, whole, fraction.getD [], exponent.getD 0⟩

/-- A number after its sign and first character. -/
def numberToken (negative : Bool)
    (first : Char) (cs : List Char) : Option (Token × Suffix cs) := do
  let (others, afterWhole) := digitRun cs
  if !first.isDigit || (first = '0' && !others.isEmpty) then none
  let (fraction, afterFraction) ← fractionPart afterWhole.1
  let (exponent, afterExponent) ← exponentPart afterFraction.1
  pure (.scalar (numberOf negative (digitValue first :: others) fraction exponent),
    (afterExponent.weaken afterFraction.2).weaken afterWhole.2)

/-! ## Texts -/

/-- The token that begins with a character, and what follows it; blanks have no token. -/
def nextToken (c : Char) (cs : List Char) : Option (Option Token × Suffix cs) :=
  match c with
  | ' ' | '\n' | '\r' | '\t' => some (none, ⟨cs, Nat.le_refl _⟩)
  | '[' => some (some .openArr, ⟨cs, Nat.le_refl _⟩)
  | ']' => some (some .closeArr, ⟨cs, Nat.le_refl _⟩)
  | '\x7b' => some (some .openObj, ⟨cs, Nat.le_refl _⟩)
  | '\x7d' => some (some .closeObj, ⟨cs, Nat.le_refl _⟩)
  | ',' => some (some .comma, ⟨cs, Nat.le_refl _⟩)
  | ':' => some (some .colon, ⟨cs, Nat.le_refl _⟩)
  | '"' => do
    let (t, s) ← stringToken cs
    pure (some t, s)
  | '-' =>
    match cs with
    | first :: rest => do
      let (t, s) ← numberToken true first rest
      pure (some t, s.weaken (by simp))
    | [] => none
  | 'n' =>
    match cs with
    | 'u' :: 'l' :: 'l' :: rest => some (some (.scalar .null), ⟨rest, by simp; omega⟩)
    | _ => none
  | 't' =>
    match cs with
    | 'r' :: 'u' :: 'e' :: rest =>
      some (some (.scalar (.bool true)), ⟨rest, by simp; omega⟩)
    | _ => none
  | 'f' =>
    match cs with
    | 'a' :: 'l' :: 's' :: 'e' :: rest =>
      some (some (.scalar (.bool false)), ⟨rest, by simp; omega⟩)
    | _ => none
  | c => do
    let (t, s) ← numberToken false c cs
    pure (some t, s)

/-- Adds the tokens of a text to those already read. -/
def tokensFrom (done : Array Token) (cs : List Char) : Option (Array Token) :=
  match cs with
  | [] => some done
  | c :: rest =>
    match nextToken c rest with
    | none => none
    | some (none, s) => tokensFrom done s.1
    | some (some t, s) => tokensFrom (done.push t) s.1
termination_by cs.length
decreasing_by all_goals exact Nat.lt_succ_of_le s.2

def tokens (text : String) : Option (Array Token) := tokensFrom #[] text.toList

end InstSelect.Json
