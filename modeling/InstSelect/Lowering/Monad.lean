import InstSelect.Abi
import InstSelect.IR.Arena
import InstSelect.Machine.Program
import InstSelect.Lowering.Bindings

/-!
# Lowering sessions

A session lowers parts of one module under one calling convention. Its state is the
program written so far and the function being built, with the operands, blocks and phis of
that function. The maps belong to the function being built; they are emptied when the next
one begins, and stay readable until then.

A failed operation leaves the state it had reached: after a refusal a session goes on from
there.
-/

namespace InstSelect.Lowering

open IR (ValueId InstId)
open Machine (Storage Operand OperandId Op PhysReg Reg Address Allocator)

/-- What a session reads and never changes. -/
structure Env where
  module : IR.Module
  abi : Abi
  [allocator : Allocator]

/--
The function being built: its source, its code so far, and the block that receives code.
-/
structure Current where
  source : IR.FuncId
  machine : Machine.Function
  block : Option Machine.BlockId

/-- What a session has produced so far. -/
structure State where
  output : Machine.Program
  /-- The machine function last produced for a source function. -/
  functions : Bindings IR.FuncId Machine.FuncId
  /-- The machine block of a source block. -/
  blocks : Bindings IR.BlockId Machine.BlockId
  /-- The operand of a source value. -/
  values : Bindings ValueId OperandId
  /-- Phis whose copies are still to be placed, in program order. -/
  pendingPhis : List InstId
  current : Option Current

namespace State

/--
The state of a session over a module of the given name that has not done anything yet.
-/
def initial (name : String) : State where
  output := .empty name
  functions := .empty
  blocks := .empty
  values := .empty
  pendingPhis := []
  current := none

/-- Forgets the function being built and all that belongs to it. -/
def reset (s : State) : State :=
  { s with blocks := .empty, values := .empty, pendingPhis := [], current := none }

end State

/-- Steps of a session. -/
abbrev LowerM := ReaderT Env (EStateM Failure State)

/-- Runs a step that neither reads nor changes the session. -/
def check {α : Type} : Except Failure α → LowerM α
  | .ok a => pure a
  | .error failure => throw failure

/-- Word arithmetic inside a session. -/
def checkWord {α : Type} (result : Except Overflow α) : LowerM α :=
  check (Failure.ofWord result)

/-- The module being lowered. -/
def sourceModule : LowerM IR.Module := do
  pure (← read).module

/-- The calling convention. -/
def theAbi : LowerM Abi := do
  pure (← read).abi

/-- The allocator. -/
def theAllocator : LowerM Allocator := do
  pure (← read).allocator

/-! ## The function being built -/

/-- The function being built. -/
def current : LowerM Current := do
  match (← get).current with
  | some c => pure c
  | none => check (violate .noFunction)

/-- The code of the function being built. -/
def machine : LowerM Machine.Function := do
  pure (← current).machine

/-- Breaks off with a violation that names the function being built. -/
def violateIn {α : Type} (broken : String → Violation) : LowerM α := do
  let f ← machine
  check (violate (broken f.name))

/-- Applies an operation that yields a result to the function being built. -/
def build {α : Type}
    (operation : [Allocator] → Machine.Function → Except Failure (α × Machine.Function)) :
    LowerM α := do
  let c ← current
  let (a, f) ← check (@operation (← theAllocator) c.machine)
  modify fun s => { s with current := some { c with machine := f } }
  pure a

/-- Applies an operation without a result to the function being built. -/
def change (operation : [Allocator] → Machine.Function →
    Except Failure Machine.Function) :
    LowerM Unit := do
  build fun f => do
    let f ← operation f
    pure ((), f)

/-- The block that receives code. -/
def insertionBlock : LowerM Machine.BlockId := do
  match ← get with
  | { current := some { block := some b, .. }, .. } => pure b
  | _ => violateIn .noInsertionBlock

/-- Directs code to a block from here on. -/
def setInsertionBlock (block : Machine.BlockId) : LowerM Unit :=
  modify fun s => { s with current := s.current.map ({ · with block := some block }) }

/-- Appends an instruction to the block that receives code. -/
def emit (op : Op) (operands : List OperandId) : LowerM Unit := do
  let block ← insertionBlock
  change (·.appendInst block op operands)

/-! ## Operands of the function being built -/

def operand (id : OperandId) : LowerM Operand := do
  check ((← machine).operand id)

def storage (id : OperandId) : LowerM Storage := do
  pure (← operand id).storage

/-- The register of a register operand. -/
def regOf (id : OperandId) : LowerM Reg := do
  check ((← machine).regOf id)

/-- A fresh virtual register; it is counted also where its operand is refused. -/
def newVReg (storage : Storage) : LowerM OperandId := do
  let reg ← build (·.takeVReg)
  build (·.pushOperand (.virt reg) storage)

/-- A fresh frame slot; it is counted also where its operand is refused. -/
def newSlot (size : UInt64) (align : UInt32) : LowerM OperandId := do
  let slot ← build (·.takeSlot)
  build (·.pushOperand (.slot slot size align) .ptr)

/-- A use of a physical register. -/
def physReg (reg : PhysReg) (storage : Storage) : LowerM OperandId :=
  build (·.physReg reg storage)

def imm (value : Int64) (storage : Storage) : LowerM OperandId :=
  build (·.imm value storage)

/-- A symbol, standing for its address. -/
def symbol (name : String) : LowerM OperandId :=
  build (·.symbol name .ptr)

/-- A memory reference. -/
def mem (address : Address) (storage : Storage) : LowerM OperandId :=
  build (·.mem address storage)

/-! ## Bound values and blocks -/

/-- The operand already bound to a value. -/
def lookupValue (value : ValueId) : LowerM (Option OperandId) := do
  pure ((← get).values.find? value)

/-- Binds a value to its operand, once. -/
def bindValue (value : ValueId) (operand : OperandId) : LowerM Unit := do
  match ← lookupValue value with
  | none => modify fun s => { s with values := s.values.insert value operand }
  | some _ => violateIn (.loweredTwice value)

/-- The machine block of a source block, created when first referred to. -/
def blockFor (block : IR.BlockId) : LowerM Machine.BlockId := do
  match (← get).blocks.find? block with
  | some id => pure id
  | none =>
    let data ← check ((← sourceModule).block block)
    match (← get).current with
    | some c =>
      if c.source = data.func then
        let id ← build (·.createBlock (data.name.getD (toString block)))
        modify fun s => { s with blocks := s.blocks.insert block id }
        pure id
      else violateIn (.foreignBlock block)
    | none => violateIn (.foreignBlock block)

end InstSelect.Lowering
