import InstSelect.Lowering.Division
import InstSelect.Lowering.Memory
import InstSelect.Lowering.ElementAddress
import InstSelect.Lowering.Transfer
import InstSelect.Lowering.Phi

/-!
# Functions

Lowering a function: open its machine function, select code for every instruction block by
block, place the phi copies, and seal the result into the program.
-/

namespace InstSelect.Lowering

open IR (InstId Inst)
open Machine (OperandId PhysReg Allocator)

/-! ## Instructions -/

/--
Emits the code of one instruction; the answer is the operand of its result, if it has one.
-/
def selectInst (id : InstId) (i : Inst) : LowerM (Option OperandId) :=
  match i.opcode with
  | .add => some <$> lowerBinary .add i
  | .sub => some <$> lowerBinary .sub i
  | .mul => some <$> lowerBinary .imul i
  | .and => some <$> lowerBinary .and i
  | .or => some <$> lowerBinary .or i
  | .xor => some <$> lowerBinary .xor i
  | .div => some <$> lowerDivision false i
  | .rem => some <$> lowerDivision true i
  | .shl => some <$> lowerShift false i
  | .shr => some <$> lowerShift true i
  | .cmp predicate => some <$> lowerCompare predicate i
  | .alloca => some <$> lowerAlloca i
  | .load => some <$> lowerLoad i
  | .store => (fun _ => none) <$> lowerStore i
  | .gep => some <$> lowerGep i
  | .phi => (fun _ => none) <$> lowerPhi id i
  | .call => lowerCall i
  | .trunc => some <$> lowerTrunc i
  | .zext => some <$> lowerExtend .movzx i
  | .sext => some <$> lowerExtend .movsx i
  | .ptrToInt | .intToPtr | .bitcast => some <$> lowerReinterpret i
  | .br => (fun _ => none) <$> lowerBr i
  | .condBr => (fun _ => none) <$> lowerCondBr i
  | .ret => (fun _ => none) <$> lowerRet i
  | .fadd | .fsub | .fmul | .fdiv | .fpToSi | .siToFp | .fpExt | .fpTrunc =>
    check (.error (.unsupported (.floatInst i.opcode i.value)))

/-- Lowers one instruction and binds its result. -/
def lowerInst (id : InstId) : LowerM Unit := do
  let i ← check ((← sourceModule).inst id)
  match ← selectInst id i with
  | some result => bindValue i.value result
  | none => pure ()

/-! ## Opening a function -/

/-- Binds parameters to the argument registers, in order. -/
def bindParams [Allocator] : List IR.Ty → List PhysReg → Machine.Function →
    Except Failure (List OperandId × Machine.Function)
  | ty :: params, reg :: regs, f => do
    let storage ← scalarStorage ty "parameter"
    let (id, f) ← f.physReg reg storage
    let (ids, f) ← bindParams params regs f
    pure (id :: ids, f)
  | _, _, f => pure ([], f)

/-- The machine function of a declaration: its header only. -/
def headerOf (f : IR.Function) : Except Failure Machine.Function := do
  let ret ← storageOf f.sig.ret
  let argTypes ← f.sig.params.mapM storageOf
  pure (.new f.name ret argTypes ⟨f.sig.isVariadic, f.isExternal⟩)

/--
The machine function of a source function before its code: header and bound arguments.
-/
def openFunction [Allocator] (abi : Abi) (f : IR.Function) :
    Except Failure Machine.Function := do
  let header ← headerOf f
  if f.isExternal then pure header
  else
    let _ ← scalarStorage f.sig.ret "return value"
    let count := f.sig.params.length
    let limit := abi.argRegisters.length
    if limit < count then .error (.unsupported (.parameters f.name count limit))
    else
      let (args, machine) ← bindParams f.sig.params abi.argRegisters header
      machine.setArgs args

/-- Forgets the previous function and opens the next one. -/
def beginFunction (func : IR.FuncId) : LowerM Unit := do
  modify State.reset
  let f ← check ((← sourceModule).function func)
  let opened ← check (@openFunction (← theAllocator) (← theAbi) f)
  modify fun s => { s with current := some ⟨func, opened, none⟩ }

/-! ## Whole functions -/

/-- Lowers one block and appends it to the layout. -/
def lowerBlock (block : IR.BlockId) : LowerM Unit := do
  let id ← blockFor block
  setInsertionBlock id
  let data ← check ((← sourceModule).block block)
  data.insts.forM lowerInst
  change (·.appendBlock id)

/-- Seals the function being built into the program; none is being built afterwards. -/
def closeFunction (func : IR.FuncId) : LowerM Machine.FuncId := do
  let f ← machine
  modify fun s => { s with current := none }
  let sealed ← check f.finish
  let (id, output) ← check
    (@Machine.Program.pushFunction (← theAllocator) (← get).output sealed)
  modify fun s => { s with output, functions := s.functions.insert func id }
  pure id

/--
Lowers a function into the program. Intrinsics are skipped: they are known by their
runtime symbol at their uses.
-/
def lowerFunction (func : IR.FuncId) : LowerM (Option Machine.FuncId) := do
  let f ← check ((← sourceModule).function func)
  if (← theAbi).isIntrinsic f.name then pure none
  else
    beginFunction func
    f.blocks.forM lowerBlock
    resolvePendingPhis
    some <$> closeFunction func

end InstSelect.Lowering
