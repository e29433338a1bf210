import InstSelect.Lowering.Integer

/-!
# Division and remainder

Quotient and remainder come out of the fixed pair `rdx:rax`. Operands of 8 bits are
widened to 32 first, so that both results land in whole registers. The divisor is brought
where setting up the pair does not overwrite it.
-/

namespace InstSelect.Lowering

open IR (Inst)
open Machine (Storage OperandId Op)

/-- The low bits of a storage class set; all bits for classes of 0 and of 64 bits. -/
def lowMask (storage : Storage) : Int64 :=
  if storage.bits = 0 ∨ 64 ≤ storage.bits then -1
  else Int64.ofNat (1 <<< storage.bits.toNat - 1)

/-- An immediate widened from a storage class. -/
def widenImm (signed : Bool) (source : Storage) (value : Int64) : Int64 :=
  if signed then value else value &&& lowMask source

/-- An operand zero- or sign-extended to a storage class. -/
def widen (id : OperandId) (target : Storage) (signed : Bool) : LowerM OperandId := do
  let o ← operand id
  match o.imm? with
  | some value => imm (widenImm signed o.storage value) target
  | none =>
    let dst ← newVReg target
    emit (if signed then .movsx else .movzx) [dst, id]
    pure dst

/-- The operation that sign-extends the accumulator into its high half. -/
def signExtension : Storage → Except Failure Op
  | .i16 => .ok .cwd
  | .i32 => .ok .cdq
  | .i64 | .ptr => .ok .cqo
  | other => violate (.noSignExtension other)

/-- The class a division computes in. -/
def workStorage (storage : Storage) : Storage :=
  if storage = .i8 then .i32 else storage

/--
A divisor that outlives the set-up of `rdx:rax`: a virtual register or a memory reference.
-/
def divisorOperand (id : OperandId) : LowerM OperandId := do
  match (← operand id).form with
  | .virt _ | .mem _ => pure id
  | _ => copyToVReg id

/--
The division proper: sets up `rdx:rax`, divides, and copies quotient or remainder out.
-/
def dividePair (work : Storage) (signed remainder : Bool) (lhs rhs : OperandId) :
    LowerM OperandId := do
  let low ← physReg .rax work
  let high ← physReg .rdx work
  emit .mov [low, lhs]
  if signed then
    emit (← check (signExtension work)) []
    emit .idiv [rhs]
  else
    emit .xor [high, high]
    emit .div [rhs]
  let result ← newVReg work
  emit .mov [result, if remainder then high else low]
  pure result

def lowerDivision (remainder : Bool) (i : Inst) : LowerM OperandId := do
  let storage ← check (scalarStorage i.ty "division")
  let (lhs, rhs) ← check (binaryOperands i)
  let signed ← isSigned lhs
  let work := workStorage storage
  let lhs ← valueOperand lhs
  let rhs ← valueOperand rhs
  let lhs ← if work = storage then pure lhs else widen lhs work signed
  let rhs ← if work = storage then pure rhs else widen rhs work signed
  let rhs ← divisorOperand rhs
  let result ← preserving [.rax, .rdx] (dividePair work signed remainder lhs rhs)
  if work = storage then pure result
  else
    let narrow ← newVReg storage
    emit .mov [narrow, result]
    pure narrow

end InstSelect.Lowering
