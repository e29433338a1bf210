import InstSelect.Lowering.Integer

/-!
# Element addresses

An element address walks from a base pointer through a list of indices. The first index
steps over the pointer itself, scaled by the size of the pointee; each later index steps
into the aggregate reached so far. Constant steps are folded into one displacement while
it fits 32 bits; other steps go through an index register.
-/

namespace InstSelect.Lowering

open IR (ValueId Inst Ty)
open Machine (OperandId Address)

/-- An address under construction: a base register and a folded displacement. -/
structure Partial where
  base : OperandId
  disp : Int32
deriving DecidableEq, Repr

/-- The memory reference of a partial address, with an index register if one is given. -/
def memoryOperand (address : Partial) (index : Option (OperandId × UInt8)) :
    LowerM OperandId := do
  let base := (Address.ofBase (← regOf address.base)).withDisp address.disp
  match index with
  | none => mem base .ptr
  | some (index, scale) =>
    check (require ((← storage index).bits = 64) (.narrowIndex index))
    mem (← check (base.withIndex (← regOf index) scale)) .ptr

/-- Computes a memory reference's address into a fresh register. -/
def loadAddress (address : Partial) (index : Option (OperandId × UInt8)) :
    LowerM OperandId := do
  let dst ← newVReg .ptr
  let memory ← memoryOperand address index
  emit .lea [dst, memory]
  pure dst

/-- A register that holds a partial address with its displacement added. -/
def flush (address : Partial) : LowerM OperandId := do
  if address.disp = 0 then pure address.base else loadAddress address none

/-- Adds an offset that no displacement can hold, through an index register. -/
def addWideOffset (base : OperandId) (offset : Int64) : LowerM Partial := do
  let amount ← copyToVReg (← imm offset .i64)
  let dst ← loadAddress ⟨base, 0⟩ (some (amount, 1))
  pure ⟨dst, 0⟩

/-- Adds a constant offset, flushing the displacement when the sum leaves 32 bits. -/
def addOffset (address : Partial) (offset : Int64) : LowerM Partial := do
  let total ← checkWord (Word.addI64 address.disp.toInt64 offset)
  match Word.toI32? total.toInt with
  | some disp => pure { address with disp }
  | none =>
    let base ← flush address
    match Word.toI32? offset.toInt with
    | some disp => pure ⟨base, disp⟩
    | none => addWideOffset base offset

/--
An index in a 64-bit register: narrow signed indices are sign-extended, others
zero-extended, so that an unsigned index never steps backwards.
-/
def indexRegister (index : ValueId) : LowerM OperandId := do
  let signed ← isSigned index
  let id ← intoRegister (← valueOperand index)
  if (← storage id).bits = 64 then pure id
  else
    let wide ← newVReg .i64
    emit (if signed then .movsx else .movzx) [wide, id]
    pure wide

/-- The scale factor of an element size that an address can encode. -/
def scaleOf? (size : UInt64) : Option UInt8 :=
  if size.toNat < 256 ∧ Address.isScale size.toUInt8 then some size.toUInt8 else none

/-- Adds an index scaled by a size that no address can encode, by multiplication. -/
def addProduct (address : Partial) (index : OperandId) (size : UInt64) :
    LowerM Partial := do
  let product ← newVReg .i64
  emit .mov [product, index]
  let factor ← copyToVReg (← imm size.toInt64 .i64)
  emit .imul [product, factor]
  let sum ← newVReg .ptr
  emit .mov [sum, address.base]
  emit .add [sum, product]
  pure { address with base := sum }

/-- Adds an index that is not a constant. -/
def addScaledIndex (address : Partial) (index : ValueId) (size : UInt64) :
    LowerM Partial := do
  let index ← indexRegister index
  match scaleOf? size with
  | some scale =>
    let dst ← loadAddress address (some (index, scale))
    pure ⟨dst, 0⟩
  | none => addProduct address index size

/-- The offset of a constant step over elements of a size. -/
def elementOffset (gep : ValueId) (step : Int64) (size : UInt64) : Except Failure Int64 :=
  match Word.toI64? (step.toInt * size.toInt64.toInt) with
  | some offset => .ok offset
  | none => violate (.gepOverflow gep)

/-- The member that a constant index selects. -/
def memberIndex (gep : ValueId) (fields : List Ty) (index : Int64) :
    Except Failure (Nat × Ty) :=
  if 0 ≤ index.toInt then
    match fields[index.toInt.toNat]? with
    | some field => .ok (index.toInt.toNat, field)
    | none => violate (.fieldOutOfRange gep index)
  else violate (.fieldOutOfRange gep index)

/-- Steps over elements of a type. -/
def stepElement (gep : ValueId) (address : Partial) (element : Ty) (index : ValueId) :
    LowerM Partial := do
  let size ← checkWord element.size
  match ← check ((← sourceModule).constantInt index) with
  | some step => addOffset address (← check (elementOffset gep step size))
  | none => addScaledIndex address index size

/-- Steps into a member of a struct. -/
def stepMember (gep : ValueId) (address : Partial) (fields : List Ty) (packed : Bool)
    (index : ValueId) : LowerM (Partial × Ty) := do
  match ← check ((← sourceModule).constantInt index) with
  | none => check (violate (.variableField gep))
  | some field =>
    let (position, ty) ← check (memberIndex gep fields field)
    let layout ← checkWord (Ty.structLayout packed fields)
    let address ← addOffset address (layout.offsets.getD position 0).toInt64
    pure (address, ty)

/-- One step of the walk: the address after it and the type it leads to. -/
def stepInto (gep : ValueId) (address : Partial) (ty : Ty) (index : ValueId) :
    LowerM (Partial × Ty) := do
  match ty with
  | .struct _ fields packed => stepMember gep address fields packed index
  | .ptr element | .array element _ => do
    let address ← stepElement gep address element index
    pure (address, element)
  | other => check (violate (.notIndexable gep other))

/-- Walks a list of indices. -/
def walk (gep : ValueId) : List ValueId → Partial → Ty → LowerM Partial
  | [], address, _ => pure address
  | index :: rest, address, ty => do
    let (address, ty) ← stepInto gep address ty index
    walk gep rest address ty

/-- An element address in a fresh virtual register. -/
def lowerGep (i : Inst) : LowerM OperandId := do
  match i.operands with
  | [] => check (violate (.noBasePointer i.value))
  | base :: indices =>
    let register ← addressRegister base
    let ty ← check ((← sourceModule).valueTy base)
    let address ← walk i.value indices ⟨register, 0⟩ ty
    loadAddress address none

end InstSelect.Lowering
