import InstSelect.Word
import InstSelect.Machine.Storage

/-!
# Machine operands

Operands of machine instructions: registers (physical or still virtual), frame slots,
symbols, immediates, memory references and block labels, each with a storage class. A
function keeps its operands in an arena and instructions name them by index, so two uses
of one value share an operand.
-/

namespace InstSelect.Machine

/-- Index of an operand in its function's arena. -/
structure OperandId where
  index : UInt32
deriving DecidableEq, Repr, Inhabited

/-- Number of a virtual register. -/
structure VReg where
  index : UInt32
deriving DecidableEq, Repr, Inhabited

/-- Number of a frame slot. -/
structure SlotId where
  index : UInt32
deriving DecidableEq, Repr, Inhabited

/-- Index of a block in its function. -/
structure BlockId where
  index : UInt32
deriving DecidableEq, Repr, Inhabited

/-- Index of a function in its program. -/
structure FuncId where
  index : UInt32
deriving DecidableEq, Repr, Inhabited

instance : ToString OperandId := ⟨fun id => s!"op{id.index.toNat}"⟩

instance : ToString VReg := ⟨fun id => s!"%v{id.index.toNat}"⟩

instance : ToString SlotId := ⟨fun id => s!"stack{id.index.toNat}"⟩

instance : ToString BlockId := ⟨fun id => s!"mbb{id.index.toNat}"⟩

instance : ToString FuncId := ⟨fun id => s!"mfn{id.index.toNat}"⟩

/-- A register usable as a memory base or index. -/
inductive Reg
  | phys (reg : PhysReg)
  | virt (reg : VReg)
deriving DecidableEq, Repr

/-- A memory reference `[base + index * scale + disp]`. -/
structure Address where
  base : Reg
  index : Option Reg
  scale : UInt8
  disp : Int32
deriving DecidableEq, Repr

namespace Address

/-- `[base]`. -/
def ofBase (base : Reg) : Address := ⟨base, none, 1, 0⟩

/-- The same reference at another displacement. -/
def withDisp (a : Address) (disp : Int32) : Address := { a with disp }

/-- The scale factors an address can encode. -/
def isScale (scale : UInt8) : Bool :=
  scale = 1 ∨ scale = 2 ∨ scale = 4 ∨ scale = 8

end Address

/-- What an operand is. -/
inductive Form
  | phys (reg : PhysReg)
  | virt (reg : VReg)
  /-- A frame slot whose place in the frame is chosen later. -/
  | slot (id : SlotId) (size : UInt64) (align : UInt32)
  | symbol (name : String)
  | imm (value : Int64)
  | mem (address : Address)
  | label (block : BlockId)
deriving DecidableEq, Repr

/-- An operand: what it is, and the storage class it is used at. -/
structure Operand where
  form : Form
  storage : Storage
deriving DecidableEq, Repr

namespace Operand

/-- Physical and virtual registers. -/
def isRegister (o : Operand) : Bool :=
  match o.form with
  | .phys _ | .virt _ => true
  | _ => false

def isImm (o : Operand) : Bool :=
  match o.form with
  | .imm _ => true
  | _ => false

/-- Operands that name memory: references, frame slots and symbols. -/
def isMemory (o : Operand) : Bool :=
  match o.form with
  | .mem _ | .slot _ _ _ | .symbol _ => true
  | _ => false

def isLabel (o : Operand) : Bool :=
  match o.form with
  | .label _ => true
  | _ => false

/-- Operands whose value is an address that has to be formed with `lea`. -/
def needsAddress (o : Operand) : Bool :=
  match o.form with
  | .slot _ _ _ | .symbol _ => true
  | _ => false

/-- The register of a register operand. -/
def reg? (o : Operand) : Option Reg :=
  match o.form with
  | .phys r => some (.phys r)
  | .virt r => some (.virt r)
  | _ => none

/-- The physical register of an operand that is one. -/
def physReg? (o : Operand) : Option PhysReg :=
  match o.form with
  | .phys r => some r
  | _ => none

/-- The value of an immediate. -/
def imm? (o : Operand) : Option Int64 :=
  match o.form with
  | .imm value => some value
  | _ => none

/-- Immediates that a sign-extended 32-bit instruction field can hold. -/
def isImm32 (o : Operand) : Bool :=
  match o.imm? with
  | some value => Word.FitsI32 value.toInt
  | none => false

end Operand

end InstSelect.Machine
