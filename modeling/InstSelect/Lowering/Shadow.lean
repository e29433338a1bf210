import InstSelect.Lowering.Operands

/-!
# Shadow slots

Incoming arguments live in registers that divisions, shifts and calls overwrite.
`preserving` saves those arguments to their shadow slots in the caller's frame before such
a sequence and reloads them after it.
-/

namespace InstSelect.Lowering

open Machine (Storage OperandId PhysReg Address)

/-- The home of incoming argument `index` in the caller's frame. -/
def shadowSlot (index : Nat) (storage : Storage) : LowerM OperandId := do
  let abi ← theAbi
  let disp ← checkWord (abi.shadowDisp index)
  mem ((Address.ofBase (.phys abi.frameBase)).withDisp disp) storage

/-- The index of the incoming argument whose operand is `id`. -/
def callerArgIndex (id : OperandId) : LowerM (Option Nat) := do
  pure ((← machine).args.findIdx? (· = id))

/-- Whether an incoming argument lives in one of the given registers. -/
def livesIn (regs : List PhysReg) (arg : OperandId × Nat) : LowerM Bool := do
  match (← operand arg.1).physReg? with
  | some reg => pure (regs.contains reg)
  | none => pure false

/-- The incoming arguments that live in one of the given registers, with their indices. -/
def argsIn (regs : List PhysReg) : LowerM (List (OperandId × Nat)) := do
  (← machine).args.zipIdx.filterM (livesIn regs)

/-- Saves an incoming argument to its shadow slot; the answer pairs the two. -/
def saveArg (arg : OperandId × Nat) : LowerM (OperandId × OperandId) := do
  let (id, index) := arg
  let slot ← shadowSlot index (← storage id)
  emit .mov [slot, id]
  pure (id, slot)

/-- Reloads an incoming argument from its shadow slot. -/
def reloadArg (saved : OperandId × OperandId) : LowerM Unit :=
  emit .mov [saved.1, saved.2]

/--
Runs `body` with the incoming arguments in `regs` saved before it and reloaded after it.
-/
def preserving {α : Type} (regs : List PhysReg) (body : LowerM α) : LowerM α := do
  let saved ← (← argsIn regs).mapM saveArg
  let result ← body
  saved.forM reloadArg
  pure result

end InstSelect.Lowering
