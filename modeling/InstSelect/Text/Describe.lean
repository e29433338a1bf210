import InstSelect.Failure
import InstSelect.Numeral.Decimal
import InstSelect.Text.Unprintable

/-!
# Descriptions

The text of program data inside diagnostics: constructors by their identifiers, with
parameters in parentheses or, where they have names, in braces. Strings are quoted;
floating-point constants are shortest decimals with at least one decimal.
-/

namespace InstSelect.Text

open Numeral

/-! ## Building blocks -/

/-- `Name(a, b)`. -/
def tuple (name : String) (parts : List String) : String :=
  name ++ "(" ++ ", ".intercalate parts ++ ")"

/-- `Name { a: x, b: y }`. -/
def record (name : String) (fields : List (String × String)) : String :=
  name ++ " \x7b " ++ ", ".intercalate (fields.map fun f => f.1 ++ ": " ++ f.2) ++ " \x7d"

/-- `[a, b]`. -/
def sequence (items : List String) : String :=
  "[" ++ ", ".intercalate items ++ "]"

/-- `None` or `Some(a)`. -/
def optional : Option String → String
  | none => "None"
  | some text => tuple "Some" [text]

/-- `true` or `false`. -/
def truth (b : Bool) : String := if b then "true" else "false"

/-- A character inside quotes. -/
def quotedChar (c : Char) : String :=
  if c = '"' then "\\\""
  else if c = '\\' then "\\\\"
  else if c = '\n' then "\\n"
  else if c = '\t' then "\\t"
  else if c = '\r' then "\\r"
  else if c.toNat = 0 then "\\0"
  else if isUnprintable c then
    "\\u\x7b" ++ String.ofList (Nat.toDigits 16 c.toNat) ++ "\x7d"
  else String.singleton c

def quoted (s : String) : String :=
  "\"" ++ String.join (s.toList.map quotedChar) ++ "\""

/-- Numbers from `0.0001` up to `10^16` are positional; a tie goes to the upper digit. -/
def floatStyle : Decimal.Style := ⟨-4, 16, .up⟩

/-- A floating-point constant. -/
def float (x : Binary64) : String :=
  if x.isNaN then "NaN"
  else if x.isFinite then (Decimal.ofBinary64 floatStyle x).text
  else if x.isNegative then "-inf"
  else "inf"

/-- An id by its type's name and its index. -/
def idText (name : String) (index : UInt32) : String :=
  tuple name [toString index.toNat]

/-! ## Types -/

mutual

def ty : IR.Ty → String
  | .void => "Void"
  | .bool => "Bool"
  | .int width => tuple "Int" [width.signedTag]
  | .uint width => tuple "Uint" [width.unsignedTag]
  | .f32 => "F32"
  | .f64 => "F64"
  | .ptr pointee => tuple "Ptr" [ty pointee]
  | .array element length => tuple "Array" [ty element, toString length.toNat]
  | .struct name fields packed => tuple "Struct"
      [record "StructTy" [("name", optional (name.map quoted)),
        ("fields", sequence (tys fields)), ("packed", truth packed)]]
  | .function params ret variadic => tuple "Function"
      [record "FnSig" [("params", sequence (tys params)), ("ret", ty ret),
        ("is_variadic", truth variadic)]]
  | .type => "Type"

def tys : List IR.Ty → List String
  | [] => []
  | t :: rest => ty t :: tys rest

end

/-! ## Source nodes -/

def constant : IR.Constant → String
  | .int value => tuple "Int" [toString value.toInt]
  | .float value => tuple "Float" [float value]
  | .null => "Null"
  | .undef => "Undef"
  | .zero => "Zero"
  | .bytes data => tuple "Bytes" [sequence (data.map fun b => toString b.toNat)]
  | .aggregate elements =>
    tuple "Aggregate" [sequence (elements.map fun v => idText "ValueId" v.index)]

def valueKind : IR.ValueKind → String
  | .instruction id => tuple "Instruction" [idText "InstId" id.index]
  | .argument func index =>
    record "Argument" [("func", idText "FuncId" func.index),
      ("index", toString index.toNat)]
  | .constant c => tuple "Constant" [constant c]
  | .function id => tuple "Function" [idText "FuncId" id.index]
  | .global id => tuple "Global" [idText "GlobalId" id.index]
  | .block id => tuple "Block" [idText "BlockId" id.index]

def opcode : IR.Opcode → String
  | .cmp predicate => tuple "Cmp" [Named.ident predicate]
  | other => other.ident

/-! ## Machine operands -/

def reg : Machine.Reg → String
  | .phys r => tuple "Hw" [Named.ident r]
  | .virt r => tuple "Virtual" [idText "VRegId" r.index]

/-- A memory reference. -/
def address (a : Machine.Address) : String :=
  record "MemRef" [("base", reg a.base), ("index", optional (a.index.map reg)),
    ("scale", toString a.scale.toNat), ("disp", toString a.disp.toInt)]

def form : Machine.Form → String
  | .phys r => tuple "HwReg" [Named.ident r]
  | .virt r => tuple "VReg" [idText "VRegId" r.index]
  | .slot id size align =>
    record "StackObject" [("id", idText "StackObjectId" id.index),
      ("size", toString size.toNat), ("align", toString align.toNat)]
  | .symbol name => tuple "Symbol" [quoted name]
  | .imm value => tuple "Imm" [toString value.toInt]
  | .mem a => tuple "Mem" [address a]
  | .label block => tuple "Block" [idText "MBlockId" block.index]

def operand (o : Machine.Operand) : String :=
  record "MachineOperand" [("kind", form o.form), ("ty", Named.ident o.storage)]

end InstSelect.Text
