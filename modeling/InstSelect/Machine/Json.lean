import InstSelect.Json.Codec
import InstSelect.Machine.Program

/-!
# Stored programs

The JSON form of machine operands, functions and programs.
-/

namespace InstSelect.Machine

open Json

instance : Stored OperandId where
  encode id := encode id.index
  decode? j := OperandId.mk <$> decode? j

instance : Stored VReg where
  encode id := encode id.index
  decode? j := VReg.mk <$> decode? j

instance : Stored SlotId where
  encode id := encode id.index
  decode? j := SlotId.mk <$> decode? j

instance : Stored BlockId where
  encode id := encode id.index
  decode? j := BlockId.mk <$> decode? j

instance : Stored FuncId where
  encode id := encode id.index
  decode? j := FuncId.mk <$> decode? j

instance : Stored Reg where
  encode
    | .phys r => tagged "Hw" (encode r)
    | .virt r => tagged "Virtual" (encode r)
  decode? j := do
    match ← j.variant? with
    | ("Hw", some payload) => .phys <$> decode? payload
    | ("Virtual", some payload) => .virt <$> decode? payload
    | _ => none

instance : Stored Address where
  encode a := .obj
    [("base", encode a.base), ("index", encode a.index), ("scale", encode a.scale),
      ("disp", encode a.disp)]
  decode? j := do
    match ← j.fields? ["base", "index", "scale", "disp"] with
    | [base, index, scale, disp] =>
      pure ⟨← required base, ← withDefault none index, ← required scale, ← required disp⟩
    | _ => none

instance : Stored Form where
  encode
    | .phys r => tagged "HwReg" (encode r)
    | .virt r => tagged "VReg" (encode r)
    | .slot id size align => tagged "StackObject"
        (.obj [("id", encode id), ("size", encode size), ("align", encode align)])
    | .symbol name => tagged "Symbol" (encode name)
    | .imm value => tagged "Imm" (encode value)
    | .mem address => tagged "Mem" (encode address)
    | .label block => tagged "Block" (encode block)
  decode? j := do
    match ← j.variant? with
    | ("HwReg", some payload) => .phys <$> decode? payload
    | ("VReg", some payload) => .virt <$> decode? payload
    | ("StackObject", some payload) =>
      match ← payload.constructorFields? false ["id", "size", "align"] with
      | [id, size, align] =>
        pure (.slot (← required id) (← required size) (← required align))
      | _ => none
    | ("Symbol", some payload) => .symbol <$> decode? payload
    | ("Imm", some payload) => .imm <$> decode? payload
    | ("Mem", some payload) => .mem <$> decode? payload
    | ("Block", some payload) => .label <$> decode? payload
    | _ => none

instance : Stored Operand where
  encode o := .obj [("kind", encode o.form), ("ty", encode o.storage)]
  decode? j := do
    match ← j.fields? ["kind", "ty"] with
    | [form, storage] => pure ⟨← required form, ← required storage⟩
    | _ => none

instance : Stored Op where
  encode
    | .setcc cond => tagged "Setcc" (encode cond)
    | .jcc cond => tagged "Jcc" (encode cond)
    | other => .str other.ident
  decode? j := do
    match ← j.variant? with
    | ("Setcc", some payload) => .setcc <$> decode? payload
    | ("Jcc", some payload) => .jcc <$> decode? payload
    | _ => j.unitTag?.bind fun tag => Op.plain.find? fun op => op.ident == tag

instance : Stored Inst where
  encode i := .obj [("opcode", encode i.op), ("operands", encode i.operands)]
  decode? j := do
    match ← j.fields? ["opcode", "operands"] with
    | [op, operands] => pure ⟨← required op, ← required operands⟩
    | _ => none

instance : Stored Block where
  encode b := .obj [("name", encode b.name), ("insts", encode b.insts)]
  decode? j := do
    match ← j.fields? ["name", "insts"] with
    | [name, insts] => pure ⟨← required name, ← required insts⟩
    | _ => none

instance : Stored Flags where
  encode f := .obj [("is_vararg", encode f.isVararg),
    ("is_external", encode f.isExternal)]
  decode? j := do
    match ← j.fields? ["is_vararg", "is_external"] with
    | [isVararg, isExternal] => pure ⟨← required isVararg, ← required isExternal⟩
    | _ => none

instance : Stored Function where
  encode f := .obj
    [("name", encode f.name), ("ret_ty", encode f.ret), ("arg_types", encode f.argTypes),
      ("flags", encode f.flags), ("args", encode f.args), ("operands", encode f.operands),
      ("blocks", encode f.blocks), ("layout", encode f.layout),
      ("next_vreg", encode f.nextVReg),
      ("next_stack_object", encode f.nextSlot), ("max_call_stack", encode f.maxCallStack),
      ("sealed", encode f.isSealed)]
  decode? j := do
    match ← j.fields? ["name", "ret_ty", "arg_types", "flags", "args", "operands",
      "blocks",
      "layout", "next_vreg", "next_stack_object", "max_call_stack", "sealed"] with
    | [name, ret, argTypes, flags, args, operands, blocks, layout, nextVReg, nextSlot,
        maxCallStack, isSealed] =>
      pure ⟨← required name, ← required ret, ← required argTypes, ← required flags,
        ← required args, ← required operands, ← required blocks, ← required layout,
        ← required nextVReg, ← required nextSlot, ← required maxCallStack,
        ← required isSealed⟩
    | _ => none

instance : Stored Relocation where
  encode r := .obj [("offset", encode r.offset), ("symbol", encode r.symbol)]
  decode? j := do
    match ← j.fields? ["offset", "symbol"] with
    | [offset, symbol] => pure ⟨← required offset, ← required symbol⟩
    | _ => none

/-- The bytes of an image, as a list of numbers or as a text. -/
def imageData? : Json → Option (Array UInt8)
  | .str text => some text.toUTF8.data
  | j => decode? j

instance : Stored Image where
  encode i := .obj
    [("name", encode i.name), ("align", encode i.align), ("data", encode i.data),
      ("relocations", encode i.relocations)]
  decode? j := do
    match ← j.fields? ["name", "align", "data", "relocations"] with
    | [name, align, data, relocations] =>
      pure ⟨← required name, ← required align, ← data.bind imageData?,
        ← required relocations⟩
    | _ => none

instance : Stored Program where
  encode p := .obj
    [("name", encode p.name), ("globals", encode p.globals),
      ("functions", encode p.functions)]
  decode? j := do
    match ← j.fields? ["name", "globals", "functions"] with
    | [name, globals, functions] =>
      pure ⟨← required name, ← required globals, ← required functions⟩
    | _ => none

end InstSelect.Machine
