import InstSelect.IR.Layout
import InstSelect.IR.Module
import InstSelect.Json.Codec
import InstSelect.Json.Reader

/-!
# Stored modules

The JSON form of source types and modules. In a text, the fields of a constructor may be
given by position, as those of a record may; a value handed over as JSON has them by name
only.
-/

namespace InstSelect.IR

open Numeral Json

/-! ## Types -/

def Width.ofTag? (tag : Width → String) (j : Json) : Option Width :=
  j.unitTag?.bind fun text => Width.all.find? fun w => tag w == text

namespace Ty

/-- The types without parameters. -/
def simple : List (String × Ty) :=
  [("Void", void), ("Bool", bool), ("F32", f32), ("F64", f64), ("Type", type)]

mutual

/-- The stored form of a type. -/
def toJson : Ty → Json
  | void => .str "Void"
  | bool => .str "Bool"
  | int width => tagged "Int" (.str width.signedTag)
  | uint width => tagged "Uint" (.str width.unsignedTag)
  | f32 => .str "F32"
  | f64 => .str "F64"
  | ptr pointee => tagged "Ptr" pointee.toJson
  | array element length => tagged "Array" (.arr [element.toJson, encode length])
  | struct name fields packed => tagged "Struct"
      (.obj [("name", encode name), ("fields", .arr (toJsons fields)),
        ("packed", encode packed)])
  | function params ret variadic => tagged "Function"
      (.obj [("params", .arr (toJsons params)), ("ret", ret.toJson),
        ("is_variadic", encode variadic)])
  | type => .str "Type"

/-- The stored forms of a list of types. -/
def toJsons : List Ty → List Json
  | [] => []
  | ty :: rest => ty.toJson :: toJsons rest

end

/-- Reads a type that nests at most `depth` levels deep. -/
def read (depth : Nat) (j : Json) : Option Ty :=
  match depth with
  | 0 => j.unitTag?.bind fun tag => simple.lookup tag
  | depth + 1 => do
    match ← j.variant? with
    | ("Int", some payload) => .int <$> Width.ofTag? Width.signedTag payload
    | ("Uint", some payload) => .uint <$> Width.ofTag? Width.unsignedTag payload
    | ("Ptr", some payload) => .ptr <$> read depth payload
    | ("Array", some (.arr [element, length])) =>
      pure (.array (← read depth element) (← decode? length))
    | ("Struct", some payload) =>
      match ← payload.fields? ["name", "fields", "packed"] with
      | [name, fields, packed] => do
        let name ← withDefault none name
        let fields ← (← (← fields).items?).mapM (read depth)
        let packed ← required packed
        pure (.struct name fields packed)
      | _ => none
    | ("Function", some payload) =>
      match ← payload.fields? ["params", "ret", "is_variadic"] with
      | [params, ret, variadic] => do
        let params ← (← (← params).items?).mapM (read depth)
        let ret ← read depth (← ret)
        let variadic ← required variadic
        pure (.function params ret variadic)
      | _ => none
    | _ => j.unitTag?.bind fun tag => simple.lookup tag

end Ty

instance : Stored Ty where
  encode := Ty.toJson
  decode? j := Ty.read j.depth j

instance : Stored FnSig where
  encode sig := .obj
    [("params", encode sig.params), ("ret", encode sig.ret),
      ("is_variadic", encode sig.isVariadic)]
  decode? j := do
    match ← j.fields? ["params", "ret", "is_variadic"] with
    | [params, ret, variadic] =>
      pure ⟨← required params, ← required ret, ← required variadic⟩
    | _ => none

instance : Stored StructLayout where
  encode layout := .obj
    [("size", encode layout.size), ("align", encode layout.align),
      ("field_offsets", encode layout.offsets)]
  decode? j := do
    match ← j.fields? ["size", "align", "field_offsets"] with
    | [size, align, offsets] =>
      pure ⟨← required size, ← required align, ← required offsets⟩
    | _ => none

/-! ## Nodes -/

instance : Stored ValueId where
  encode id := encode id.index
  decode? j := ValueId.mk <$> decode? j

instance : Stored InstId where
  encode id := encode id.index
  decode? j := InstId.mk <$> decode? j

instance : Stored BlockId where
  encode id := encode id.index
  decode? j := BlockId.mk <$> decode? j

instance : Stored FuncId where
  encode id := encode id.index
  decode? j := FuncId.mk <$> decode? j

instance : Stored GlobalId where
  encode id := encode id.index
  decode? j := GlobalId.mk <$> decode? j

/--
Numbers from `0.00001` up to `10^16` are stored positionally; a tie goes to the even
digit.
-/
def floatStyle : Decimal.Style := ⟨-5, 16, .even⟩

/--
Floating-point constants are stored as shortest decimals; only finite ones have a form.
-/
instance : Stored Binary64 where
  encode x := if x.isFinite then .decimal (Decimal.ofBinary64 floatStyle x) else .null
  decode?
    | .int n =>
      if n.natAbs < UInt64.size then
        let x := Binary64.nearest n.natAbs 1
        some (if n < 0 then x.negate else x)
      else (Decimal.ofInt n).toBinary64?
    | .decimal d => d.toBinary64?
    | _ => none

instance : Stored Constant where
  encode
    | .int value => tagged "Int" (encode value)
    | .float value => tagged "Float" (encode value)
    | .null => .str "Null"
    | .undef => .str "Undef"
    | .zero => .str "Zero"
    | .bytes data => tagged "Bytes" (encode data)
    | .aggregate elements => tagged "Aggregate" (encode elements)
  decode? j := do
    match ← j.variant? with
    | ("Int", some payload) => .int <$> decode? payload
    | ("Float", some payload) => .float <$> decode? payload
    | ("Bytes", some payload) => .bytes <$> decode? payload
    | ("Aggregate", some payload) => .aggregate <$> decode? payload
    | _ =>
      match ← j.unitTag? with
      | "Null" => some .null
      | "Undef" => some .undef
      | "Zero" => some .zero
      | _ => none

/-- The stored form of a value's origin. -/
def ValueKind.toJson : ValueKind → Json
  | instruction id => tagged "Instruction" (encode id)
  | argument func index =>
    tagged "Argument" (.obj [("func", encode func), ("index", encode index)])
  | constant c => tagged "Constant" (encode c)
  | function id => tagged "Function" (encode id)
  | global id => tagged "Global" (encode id)
  | block id => tagged "Block" (encode id)

/--
Reads a value's origin; `positional` lets the fields of an argument be given by position.
-/
def ValueKind.read (positional : Bool) (j : Json) : Option ValueKind := do
  match ← j.variant? with
  | ("Instruction", some payload) => .instruction <$> decode? payload
  | ("Argument", some payload) =>
    match ← payload.constructorFields? positional ["func", "index"] with
    | [func, index] => pure (.argument (← required func) (← required index))
    | _ => none
  | ("Constant", some payload) => .constant <$> decode? payload
  | ("Function", some payload) => .function <$> decode? payload
  | ("Global", some payload) => .global <$> decode? payload
  | ("Block", some payload) => .block <$> decode? payload
  | _ => none

def Value.read (positional : Bool) (j : Json) : Option Value := do
  match ← j.fields? ["ty", "kind"] with
  | [ty, kind] => pure ⟨← required ty, ← kind.bind (ValueKind.read positional)⟩
  | _ => none

instance : Stored ValueKind where
  encode := ValueKind.toJson
  decode? := ValueKind.read false

instance : Stored Value where
  encode v := .obj [("ty", encode v.ty), ("kind", encode v.kind)]
  decode? := Value.read false

instance : Stored Opcode where
  encode
    | .cmp predicate => tagged "Cmp" (encode predicate)
    | other => .str other.ident
  decode? j := do
    match ← j.variant? with
    | ("Cmp", some payload) => .cmp <$> decode? payload
    | _ => j.unitTag?.bind fun tag => Opcode.plain.find? fun op => op.ident == tag

instance : Stored Inst where
  encode i := .obj
    [("opcode", encode i.opcode), ("operands", encode i.operands), ("ty", encode i.ty),
      ("block", encode i.block), ("value", encode i.value)]
  decode? j := do
    match ← j.fields? ["opcode", "operands", "ty", "block", "value"] with
    | [opcode, operands, ty, block, value] =>
      pure ⟨← required opcode, ← required operands, ← required ty, ← required block,
        ← required value⟩
    | _ => none

instance : Stored Block where
  encode b := .obj
    [("func", encode b.func), ("name", encode b.name), ("insts", encode b.insts),
      ("value", encode b.value)]
  decode? j := do
    match ← j.fields? ["func", "name", "insts", "value"] with
    | [func, name, insts, value] =>
      pure ⟨← required func, ← withDefault none name, ← required insts, ← required value⟩
    | _ => none

instance : Stored Function where
  encode f := .obj
    [("name", encode f.name), ("sig", encode f.sig), ("params", encode f.params),
      ("blocks", encode f.blocks), ("is_external", encode f.isExternal),
      ("value", encode f.value)]
  decode? j := do
    match ← j.fields? ["name", "sig", "params", "blocks", "is_external", "value"] with
    | [name, sig, params, blocks, isExternal, value] =>
      pure ⟨← required name, ← required sig, ← required params, ← required blocks,
        ← required isExternal, ← required value⟩
    | _ => none

instance : Stored Global where
  encode g := .obj
    [("name", encode g.name), ("ty", encode g.ty), ("initializer", encode g.initializer),
      ("alignment", encode g.alignment), ("value", encode g.value)]
  decode? j := do
    match ← j.fields? ["name", "ty", "initializer", "alignment", "value"] with
    | [name, ty, initializer, alignment, value] =>
      pure ⟨← required name, ← required ty, ← withDefault none initializer,
        ← withDefault none alignment, ← required value⟩
    | _ => none

namespace Module

/-- The stored form of a module. -/
def toJson (m : Module) : Json :=
  .obj [("name", encode m.name), ("values", encode m.values), ("insts", encode m.insts),
    ("blocks", encode m.blocks), ("functions", encode m.functions),
    ("globals", encode m.globals)]

def read (positional : Bool) (j : Json) : Option Module := do
  match ← j.fields? ["name", "values", "insts", "blocks", "functions", "globals"] with
  | [name, values, insts, blocks, functions, globals] =>
    let values ← (← (← values).items?).mapM (Value.read positional)
    pure ⟨← required name, values.toArray, ← required insts, ← required blocks,
      ← required functions, ← required globals⟩
  | _ => none

def ofText? (text : String) : Option Module := do
  read true (← Json.parse text)

end Module

instance : Stored Module where
  encode := Module.toJson
  decode? := Module.read false

end InstSelect.IR
