import InstSelect.Lowering.Monad
import InstSelect.Lowering.Storage

/-!
# Operands of values

`resolve` gives the operand of an IR value, the same one at every use within a function.
It never emits code. The other operations bring an operand into the shape that an
instruction needs, with a copy or an address computation where necessary.
-/

namespace InstSelect.Lowering

open IR (ValueId Constant)
open Machine (OperandId Op)

/-- An immediate operand for a scalar constant. -/
def constantOperand (value : ValueId) (c : Constant) : LowerM OperandId := do
  let ty ← check ((← sourceModule).valueTy value)
  let storage ← check (storageOf ty)
  match c with
  | .int n => imm n storage
  | .null | .zero | .undef => imm 0 storage
  | .float _ => check (.error (.unsupported (.floatConstant value)))
  | .bytes _ | .aggregate _ => check (.error (.unsupported (.aggregateOperand value)))

/-- The register of an argument of the function being built. -/
def argumentOperand (value : ValueId) (func : IR.FuncId) (index : UInt32) :
    LowerM OperandId := do
  match (← get).current with
  | some c =>
    if c.source = func then
      match c.machine.arg? index.toNat with
      | some id => pure id
      | none => violateIn (.missingArgument · index)
    else violateIn (.foreignArgument value func)
  | none => violateIn (.foreignArgument value func)

/-- A new operand for a value that has none yet. -/
def freshOperand (value : ValueId) : LowerM OperandId := do
  let m ← sourceModule
  let data ← check (m.value value)
  match data.kind with
  | .instruction inst => violateIn (.usedBeforeLowered value inst)
  | .argument func index => argumentOperand value func index
  | .constant c => constantOperand value c
  | .function func => do
    let f ← check (m.function func)
    symbol (← check ((← theAbi).symbolName f.name))
  | .global global => do
    let g ← check (m.global global)
    symbol g.name
  | .block block => do
    let id ← blockFor block
    build (·.blockRef id)

/-- The operand of a value. -/
def resolve (value : ValueId) : LowerM OperandId := do
  match ← lookupValue value with
  | some id => pure id
  | none =>
    let id ← freshOperand value
    bindValue value id
    pure id

/--
The operation that copies an operand's value: an address is formed where it names memory.
-/
def copyOp (src : OperandId) : LowerM Op := do
  pure (if (← operand src).needsAddress then .lea else .mov)

/-- Copies an operand's value into a register or memory operand. -/
def materialize (dst src : OperandId) : LowerM Unit := do
  emit (← copyOp src) [dst, src]

/-- A copy of an operand's value in a fresh virtual register. -/
def copyToVReg (src : OperandId) : LowerM OperandId := do
  let o ← operand src
  let dst ← newVReg (if o.needsAddress then .ptr else o.storage)
  materialize dst src
  pure dst

/-- The operand itself if it is a register, else a copy in a fresh virtual register. -/
def intoRegister (id : OperandId) : LowerM OperandId := do
  if (← operand id).isRegister then pure id else copyToVReg id

/--
An operand carrying a value itself: frame slots and symbols are replaced by their address
in a fresh virtual register.
-/
def valueOperand (value : ValueId) : LowerM OperandId := do
  let id ← resolve value
  if (← operand id).needsAddress then
    let dst ← newVReg .ptr
    emit .lea [dst, id]
    pure dst
  else pure id

/-- A pointer value in a register, for use as a memory base. -/
def addressRegister (ptr : ValueId) : LowerM OperandId := do
  intoRegister (← valueOperand ptr)

/--
A source that an arithmetic instruction can encode: wide immediates go through a register.
-/
def aluSource (id : OperandId) : LowerM OperandId := do
  let o ← operand id
  if o.isImm && !o.isImm32 then copyToVReg id else pure id

end InstSelect.Lowering
