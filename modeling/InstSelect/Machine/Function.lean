import InstSelect.Machine.Allocator

/-!
# Machine functions

A machine function under construction: an arena of operands, blocks of instructions, and
the layout, which lists the blocks in the order they were appended. Each operation returns
the function it leaves; it fails, and leaves nothing, when an invariant would break or
memory is refused. An instruction enters a block only if its operands exist and have
shapes its operation accepts. Sealing ends the construction.
-/

namespace InstSelect.Machine

/-- Properties of a function that are visible in its header. -/
structure Flags where
  isVararg : Bool
  isExternal : Bool
deriving DecidableEq, Repr

/-- A block: a name and instructions. -/
structure Block where
  name : String
  insts : List Inst
deriving DecidableEq, Repr

namespace Block

/-- Index of the first instruction that leaves the block. -/
def firstTerminator? (b : Block) : Option Nat :=
  b.insts.findIdx? fun i => i.op.isTerminator

/-- The block with an instruction at its end. -/
def append (b : Block) (i : Inst) : Block := { b with insts := b.insts ++ [i] }

/--
The block with an instruction before its first terminator, or at its end if it has none.
-/
def insertBeforeTerminator (b : Block) (i : Inst) : Block :=
  { b with
    insts := b.insts.takeWhile (fun j => !j.op.isTerminator) ++
      i :: b.insts.dropWhile (fun j => !j.op.isTerminator) }

end Block

/-- A function of machine code over virtual registers. -/
structure Function where
  name : String
  ret : Storage
  argTypes : List Storage
  flags : Flags
  args : List OperandId
  operands : Array Operand
  blocks : Array Block
  layout : List BlockId
  nextVReg : UInt32
  nextSlot : UInt32
  maxCallStack : UInt32
  isSealed : Bool
deriving DecidableEq, Repr

namespace Function

/-- A function with a header and no body. -/
def new (name : String) (ret : Storage) (argTypes : List Storage) (flags : Flags) :
    Function :=
  { name, ret, argTypes, flags, args := [], operands := #[], blocks := #[], layout := [],
    nextVReg := 0, nextSlot := 0, maxCallStack := 0, isSealed := false }

/-- Fails once the function is sealed. -/
def checkOpen (f : Function) : Except Failure Unit :=
  require (!f.isSealed) (.sealed f.name)

/-! ## Operands -/

def operand (f : Function) (id : OperandId) : Except Failure Operand :=
  match f.operands[id.index.toNat]? with
  | some o => .ok o
  | none => violate (.danglingOperand id f.name)

def block (f : Function) (id : BlockId) : Except Failure Block :=
  match f.blocks[id.index.toNat]? with
  | some b => .ok b
  | none => violate (.danglingMachineBlock id f.name)

/-- Adds an operand to the arena. -/
def pushOperand [Allocator] (f : Function) (form : Form) (storage : Storage) :
    Except Failure (OperandId × Function) := do
  f.checkOpen
  Allocator.ask (.operand f.operands.size)
  pure (⟨UInt32.ofNat f.operands.size⟩,
    { f with operands := f.operands.push ⟨form, storage⟩ })

/-- Counts a fresh virtual register. -/
def takeVReg (f : Function) : Except Failure (VReg × Function) := do
  let next ← Failure.ofWord (Word.addU32 f.nextVReg 1)
  pure (⟨f.nextVReg⟩, { f with nextVReg := next })

/-- Adds a fresh virtual register. -/
def newVReg [Allocator] (f : Function) (storage : Storage) :
    Except Failure (OperandId × Function) := do
  let (reg, f) ← f.takeVReg
  f.pushOperand (.virt reg) storage

/-- Adds a use of a physical register. -/
def physReg [Allocator] (f : Function) (reg : PhysReg) (storage : Storage) :
    Except Failure (OperandId × Function) :=
  f.pushOperand (.phys reg) storage

/-- Counts a fresh frame slot. -/
def takeSlot (f : Function) : Except Failure (SlotId × Function) := do
  let next ← Failure.ofWord (Word.addU32 f.nextSlot 1)
  pure (⟨f.nextSlot⟩, { f with nextSlot := next })

/-- Adds a fresh frame slot. -/
def stackSlot [Allocator] (f : Function) (size : UInt64) (align : UInt32) :
    Except Failure (OperandId × Function) := do
  let (slot, f) ← f.takeSlot
  f.pushOperand (.slot slot size align) .ptr

def symbol [Allocator] (f : Function) (name : String) (storage : Storage) :
    Except Failure (OperandId × Function) :=
  f.pushOperand (.symbol name) storage

/-- Adds an immediate. -/
def imm [Allocator] (f : Function) (value : Int64) (storage : Storage) :
    Except Failure (OperandId × Function) :=
  f.pushOperand (.imm value) storage

/-- Adds a memory reference. -/
def mem [Allocator] (f : Function) (address : Address) (storage : Storage) :
    Except Failure (OperandId × Function) :=
  f.pushOperand (.mem address) storage

/-- Adds the label of an existing block. -/
def blockRef [Allocator] (f : Function) (block : BlockId) :
    Except Failure (OperandId × Function) := do
  let _ ← f.block block
  f.pushOperand (.label block) .void

/-- The register of a register operand, for use as a memory base or index. -/
def regOf (f : Function) (id : OperandId) : Except Failure Reg := do
  let o ← f.operand id
  match o.reg? with
  | some r => pure r
  | none => violate (.notARegister id o)

/-! ## Arguments -/

/-- Names the operands that hold the incoming arguments. -/
def setArgs (f : Function) (args : List OperandId) : Except Failure Function := do
  f.checkOpen
  pure { f with args }

/-- The operand of an incoming argument. -/
def arg? (f : Function) (index : Nat) : Option OperandId := f.args[index]?

/-! ## Blocks and instructions -/

/-- Creates a block; it joins the layout only once appended. -/
def createBlock [Allocator] (f : Function) (name : String) :
    Except Failure (BlockId × Function) := do
  f.checkOpen
  Allocator.ask (.block f.blocks.size)
  pure (⟨UInt32.ofNat f.blocks.size⟩, { f with blocks := f.blocks.push ⟨name, []⟩ })

/-- Puts an existing block at the end of the layout, once. -/
def appendBlock [Allocator] (f : Function) (block : BlockId) :
    Except Failure Function := do
  f.checkOpen
  let _ ← f.block block
  require (!f.layout.contains block) (.appendedTwice block f.name)
  Allocator.ask (.layout f.layout.length)
  pure { f with layout := f.layout ++ [block] }

/-- An instruction whose operands exist and fit its operation. -/
def checkInst (f : Function) (op : Op) (operands : List OperandId) :
    Except Failure Inst := do
  let resolved ← operands.mapM f.operand
  require (op.accepts resolved) (.misfit op resolved)
  pure ⟨op, operands⟩

/-- Adds an instruction to one existing block. -/
def updateBlock [Allocator] (f : Function) (id : BlockId) (change : Block → Block) :
    Except Failure Function := do
  let b ← f.block id
  Allocator.ask (.inst id b.insts.length)
  pure { f with blocks := f.blocks.setIfInBounds id.index.toNat (change b) }

def appendInst [Allocator] (f : Function) (block : BlockId) (op : Op)
    (operands : List OperandId) :
    Except Failure Function := do
  f.checkOpen
  let i ← f.checkInst op operands
  f.updateBlock block (·.append i)

/-- Inserts an instruction before the first terminator of a block, or at its end. -/
def insertBeforeTerminator [Allocator] (f : Function) (block : BlockId) (op : Op)
    (operands : List OperandId) : Except Failure Function := do
  f.checkOpen
  let i ← f.checkInst op operands
  f.updateBlock block (·.insertBeforeTerminator i)

/-- The blocks of the layout, in order. -/
def layoutBlocks (f : Function) : Except Failure (List (BlockId × Block)) :=
  f.layout.mapM fun id => do
    let b ← f.block id
    pure (id, b)

/-! ## Frame and sealing -/

/-- Records that a call site needs outgoing argument space. -/
def reserveCallStack (f : Function) (bytes : UInt32) : Function :=
  { f with maxCallStack := max f.maxCallStack bytes }

/-- Ends the construction. -/
def finish (f : Function) : Except Failure Function := do
  f.checkOpen
  pure { f with isSealed := true }

end Function

namespace Address

/-- The same reference with an index register, at a scale an address can encode. -/
def withIndex (a : Address) (index : Reg) (scale : UInt8) : Except Failure Address := do
  require (isScale scale) (.badScale scale)
  pure { a with index := some index, scale }

end Address

end InstSelect.Machine
