import InstSelect.Lowering.Integer

/-!
# Frame slots, loads and stores

An `alloca` becomes a frame slot and no code: uses take the slot's address. Loads and
stores go through a pointer in a register.
-/

namespace InstSelect.Lowering

open IR (Inst Ty)
open Machine (Storage OperandId Address)

/-- The element type and element count of nested arrays; the count saturates. -/
def flattenArray : Ty → UInt64 → Ty × UInt64
  | .array element length, count => flattenArray element (Word.satMul count length)
  | ty, count => (ty, count)

/-- Number of objects an `alloca` reserves: 1, or its constant operand. -/
def allocaCount (i : Inst) : LowerM Int64 := do
  match i.operands with
  | [] => pure 1
  | [count] => do
    match ← check ((← sourceModule).constantInt count) with
    | some n => pure n
    | none => check (violate (.allocaVariable i.value))
  | _ => check (violate (.malformedAlloca i.value))

/-- A frame slot for a number of objects. -/
def reserveObjects (i : Inst) (allocated : Ty) (count : Int64) : LowerM OperandId := do
  check (require (0 ≤ count) (.allocaNegative i.value count))
  let (element, length) := flattenArray allocated 1
  let extent ← checkWord element.extent
  let size := Word.satMul (Word.satMul extent.size length) count.toUInt64
  newSlot size extent.align

/-- A frame slot of the allocated size. -/
def lowerAlloca (i : Inst) : LowerM OperandId := do
  match i.ty.pointee? with
  | none => check (violate (.allocaNotPointer i.value))
  | some allocated => reserveObjects i allocated (← allocaCount i)

/-- The memory at the address in a register. -/
def memoryAt (base : OperandId) (storage : Storage) : LowerM OperandId := do
  mem (Address.ofBase (← regOf base)) storage

/-- A load into a fresh virtual register. -/
def lowerLoad (i : Inst) : LowerM OperandId := do
  let storage ← check (byValueStorage i.ty "load")
  let address ← addressRegister (← check (unaryOperand i))
  let memory ← memoryAt address storage
  let dst ← newVReg storage
  emit .mov [dst, memory]
  pure dst

def lowerStore (i : Inst) : LowerM Unit := do
  let (value, ptr) ← check (binaryOperands i)
  let ty ← check ((← sourceModule).valueTy value)
  let storage ← check (byValueStorage ty "store")
  let value ← aluSource (← valueOperand value)
  let address ← addressRegister ptr
  let memory ← memoryAt address storage
  emit .mov [memory, value]

end InstSelect.Lowering
