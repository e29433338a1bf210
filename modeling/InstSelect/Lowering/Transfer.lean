import InstSelect.Lowering.Integer

/-!
# Calls, branches and returns

Calls pass every argument in a register. The caller's own register arguments are saved to
their shadow slots first; an argument that is one of them is read back from its slot,
since binding earlier arguments may already have overwritten its register.
-/

namespace InstSelect.Lowering

open IR (ValueId Inst)
open Machine (Storage OperandId PhysReg)

/-! ## Calls -/

/-- Storage classes of call arguments. -/
def argumentStorages (m : IR.Module) (args : List ValueId) :
    Except Failure (List Storage) :=
  args.mapM fun arg => do
    byValueStorage (← m.valueTy arg) "call argument"

/-- A call target that binding the arguments does not overwrite. -/
def callTarget (callee : ValueId) : LowerM OperandId := do
  let id ← resolve callee
  match (← operand id).form with
  | .symbol _ | .virt _ | .mem _ => pure id
  | _ => copyToVReg id

/-- Moves one argument into its register. -/
def bindArgument (arg : ValueId) (storage : Storage) (reg : PhysReg) : LowerM Unit := do
  let id ← resolve arg
  let source ←
    match ← callerArgIndex id with
    | some home => shadowSlot home storage
    | none => pure id
  let dst ← physReg reg storage
  materialize dst source

/-- Moves the arguments into the argument registers, in order. -/
def bindArguments : List ValueId → List Storage → List PhysReg → LowerM Unit
  | arg :: args, storage :: storages, reg :: regs => do
    bindArgument arg storage reg
    bindArguments args storages regs
  | _, _, _ => pure ()

/-- The result of a call, copied out of the return register. -/
def callResult (storage : Storage) : LowerM (Option OperandId) := do
  if storage = .void then pure none
  else
    let ret ← physReg (← theAbi).returnRegister storage
    let dst ← newVReg storage
    emit .mov [dst, ret]
    pure (some dst)

/-- Register-only calls. -/
def lowerCall (i : Inst) : LowerM (Option OperandId) := do
  let abi ← theAbi
  match i.operands with
  | [] => check (violate (.noCallee i.value))
  | callee :: args =>
    let limit := abi.argRegisters.length
    if limit < args.length then
      check (.error (.unsupported (.arguments i.value args.length limit)))
    else
      let storages ← check (argumentStorages (← sourceModule) args)
      let ret ← check (byValueStorage i.ty "call result")
      let target ← callTarget callee
      let reserve ← checkWord (abi.callStackSize args.length)
      change fun f => pure (f.reserveCallStack reserve)
      preserving abi.argRegisters do
        bindArguments args storages abi.argRegisters
        emit .call [target]
        callResult ret

/-! ## Branches and returns -/

/-- An unconditional branch. -/
def lowerBr (i : Inst) : LowerM Unit := do
  let target ← resolve (← check (unaryOperand i))
  emit .jmp [target]

/-- `test c, c`, then `je` to the false target and `jmp` to the true one. -/
def lowerCondBr (i : Inst) : LowerM Unit := do
  match i.operands with
  | [condition, ifTrue, ifFalse] =>
    let condition ← intoRegister (← valueOperand condition)
    let onTrue ← resolve ifTrue
    let onFalse ← resolve ifFalse
    emit .test [condition, condition]
    emit (.jcc .e) [onFalse]
    emit .jmp [onTrue]
  | _ => check (violate (.malformedCondBr i.value))

/-- A return, with the value in the return register. -/
def lowerRet (i : Inst) : LowerM Unit := do
  let f ← machine
  match i.operands with
  | [] => pure ()
  | [value] =>
    check (require (f.ret ≠ .void) (.returnsFromVoid i.value f.name))
    let source ← resolve value
    let ret ← physReg (← theAbi).returnRegister f.ret
    materialize ret source
  | _ => check (violate (.malformedRet i.value))
  emit .ret []

end InstSelect.Lowering
