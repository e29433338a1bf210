import InstSelect.Lowering.Shadow

/-!
# Integer arithmetic, comparison and conversion

Two-address code for the plain binary operations, shifts, comparisons and integer casts.
Each operation emits the code of one instruction and answers with the operand that holds
its result.
-/

namespace InstSelect.Lowering

open IR (ValueId Inst Predicate)
open Machine (Storage OperandId Op Cond)

def binaryOperands (i : Inst) : Except Failure (ValueId × ValueId) :=
  match i.operands with
  | [lhs, rhs] => .ok (lhs, rhs)
  | _ => violate (.notBinary i.opcode i.value)

def unaryOperand (i : Inst) : Except Failure ValueId :=
  match i.operands with
  | [x] => .ok x
  | _ => violate (.notUnary i.opcode i.value)

/-- Whether the values of an IR value's type are signed. -/
def isSigned (value : ValueId) : LowerM Bool := do
  pure (← check ((← sourceModule).valueTy value)).isSigned

/-! ## Binary operations -/

/--
A source that `op` can encode: `imul` takes no immediate, the others none beyond 32 bits.
-/
def binarySource (op : Op) (id : OperandId) : LowerM OperandId := do
  if op = .imul then
    let o ← operand id
    if o.isRegister || o.isMemory then pure id else copyToVReg id
  else aluSource id

/-- `mov dst, lhs` then `op dst, rhs`. -/
def lowerBinary (op : Op) (i : Inst) : LowerM OperandId := do
  let storage ← check (scalarStorage i.ty "arithmetic")
  let (lhs, rhs) ← check (binaryOperands i)
  let lhs ← resolve lhs
  let rhs ← valueOperand rhs
  let dst ← newVReg storage
  materialize dst lhs
  let rhs ← binarySource op rhs
  emit op [dst, rhs]
  pure dst

/-! ## Shifts -/

/-- The machine shift: right shifts of signed values keep the sign. -/
def shiftOp (right signed : Bool) : Op :=
  if right then (if signed then .sar else .shr) else .shl

/-- Shifts `dst` by an amount that is not a constant, which has to sit in `cl`. -/
def shiftByRegister (op : Op) (dst amount : OperandId) : LowerM Unit := do
  let amountStorage ← storage amount
  preserving [.rcx] do
    let rcx ← physReg .rcx amountStorage
    emit .mov [rcx, amount]
    let cl ← physReg .rcx .i8
    emit op [dst, cl]

def lowerShift (right : Bool) (i : Inst) : LowerM OperandId := do
  let storage ← check (scalarStorage i.ty "shift")
  let (lhs, amount) ← check (binaryOperands i)
  let op := shiftOp right (← isSigned lhs)
  let lhs ← resolve lhs
  let dst ← newVReg storage
  materialize dst lhs
  let amount ← valueOperand amount
  match (← operand amount).imm? with
  | some count =>
    let count ← imm count .i8
    emit op [dst, count]
  | none => shiftByRegister op dst amount
  pure dst

/-! ## Comparisons -/

def conditionCode : Predicate → Bool → Cond
  | .eq, _ => .e
  | .ne, _ => .ne
  | .lt, true => .l
  | .le, true => .le
  | .gt, true => .g
  | .ge, true => .ge
  | .lt, false => .b
  | .le, false => .be
  | .gt, false => .a
  | .ge, false => .ae

/--
Operands and condition that `cmp` can encode: an immediate moves to the right, and of two
immediates the left one into a register.
-/
def orderOperands (cond : Cond) (lhs rhs : OperandId) :
    LowerM (Cond × OperandId × OperandId) := do
  let left ← operand lhs
  let right ← operand rhs
  match left.isImm, right.isImm with
  | true, false => pure (cond.swap, rhs, lhs)
  | true, true => pure (cond, ← copyToVReg lhs, rhs)
  | false, _ => pure (cond, lhs, rhs)

/-- A right operand that `cmp` can take beside a left operand in memory. -/
def compareSource (lhs rhs : OperandId) : LowerM OperandId := do
  let left ← operand lhs
  let right ← operand rhs
  if left.isMemory && right.isMemory then copyToVReg rhs else pure rhs

/-- `cmp` then `setcc` into a byte register. -/
def lowerCompare (predicate : Predicate) (i : Inst) : LowerM OperandId := do
  let (lhs, rhs) ← check (binaryOperands i)
  let ty ← check ((← sourceModule).valueTy lhs)
  let _ ← check (scalarStorage ty "comparison")
  let lhs ← valueOperand lhs
  let rhs ← valueOperand rhs
  let (cond, lhs, rhs) ← orderOperands (conditionCode predicate ty.isSigned) lhs rhs
  let rhs ← compareSource lhs rhs
  let rhs ← aluSource rhs
  emit .cmp [lhs, rhs]
  let dst ← newVReg .i8
  emit (.setcc cond) [dst]
  pure dst

/-! ## Conversions -/

/-- A value reduced to the two's-complement range of a storage class. -/
def wrapTo (value : Int64) : Storage → Int64
  | .i8 => value.toInt8.toInt64
  | .i16 => value.toInt16.toInt64
  | .i32 => value.toInt32.toInt64
  | _ => value

/-- Truncation: a move at the narrow width; a constant is reduced first. -/
def lowerTrunc (i : Inst) : LowerM OperandId := do
  let target ← check (scalarStorage i.ty "truncation")
  let source ← valueOperand (← check (unaryOperand i))
  let o ← operand source
  check (require (target.bits < o.storage.bits) (.doesNotNarrow i.value o.storage target))
  let source ←
    match o.imm? with
    | some value => imm (wrapTo value target) target
    | none => pure source
  let dst ← newVReg target
  emit .mov [dst, source]
  pure dst

/-- Zero and sign extension, by `movzx` or `movsx`. -/
def lowerExtend (op : Op) (i : Inst) : LowerM OperandId := do
  let target ← check (scalarStorage i.ty "extension")
  let source ← valueOperand (← check (unaryOperand i))
  let o ← operand source
  check (require (o.storage.bits < target.bits)
    (.doesNotWiden i.opcode i.value o.storage target))
  let source ← if o.isImm then copyToVReg source else pure source
  let dst ← newVReg target
  emit op [dst, source]
  pure dst

/-- Pointer and bit casts only change how bits are viewed. -/
def lowerReinterpret (i : Inst) : LowerM OperandId := do
  let _ ← check (scalarStorage i.ty "reinterpretation")
  intoRegister (← resolve (← check (unaryOperand i)))

end InstSelect.Lowering
