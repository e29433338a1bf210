import InstSelect.Word
import InstSelect.IR.Module
import InstSelect.Machine.Inst

/-!
# What can go wrong

Every operation that can fail does so with a `Failure`, which names its cause as data.
Three families are told apart, because a caller treats them differently:

* refusals (`unsupported`, `allocation`, `generic`): the request is well formed, but
  selection does not cover it, memory does not hold it, or the surroundings failed; the
  state of a lowering session stays usable;
* violations (`violation`): the module, or the use of an interface, breaks an invariant;
* exceeded limits (`overflow`, `indentation`): an address, size or displacement left its
  word, or a line of a listing its margin.

The text of each cause is in `InstSelect.Failure.Message`.
-/

namespace InstSelect

open IR (ValueId InstId Ty ValueKind Opcode)
open Machine (Storage Operand OperandId Op)

/-- Type families that no register or memory operand can hold. -/
inductive Unstorable
  | array
  | function
  | type
deriving DecidableEq, Repr

/-- Features outside the selector's reach. -/
inductive Unsupported
  /-- A type that has no storage class. -/
  | storage (family : Unstorable)
  /-- A floating-point value in the named role. -/
  | floating (role : String)
  /-- A struct that does not fit a register, copied whole in the named role. -/
  | structByValue (name : Option String) (size : UInt64) (role : String)
  /-- An intrinsic without a runtime routine. -/
  | intrinsic (name : String)
  /-- More parameters than argument registers. -/
  | parameters (function : String) (count limit : Nat)
  /-- More call arguments than argument registers. -/
  | arguments (call : ValueId) (count limit : Nat)
  /-- A floating-point operation. -/
  | floatInst (opcode : Opcode) (value : ValueId)
  /-- A floating-point constant as an operand. -/
  | floatConstant (value : ValueId)
  /-- A byte string or aggregate constant as an operand. -/
  | aggregateOperand (value : ValueId)
deriving DecidableEq, Repr

/-- Why memory could not be had. -/
inductive Allocation
  /-- The requested size exceeds what any object may have. -/
  | capacity
  /-- The allocator has no such amount. -/
  | exhausted
deriving DecidableEq, Repr

/-- Broken invariants. -/
inductive Violation
  | danglingValue (id : ValueId)
  | danglingInst (id : InstId)
  | danglingBlock (id : IR.BlockId)
  | danglingFunction (id : IR.FuncId)
  | danglingGlobal (id : IR.GlobalId)
  | notABlock (value : ValueId) (kind : ValueKind)
  | malformedPhi (value : ValueId)
  | notAPhi (value : ValueId)
  | externalBody (function : String)
  | missingParameter (func : IR.FuncId) (index : Nat)
  | unpositioned
  | notCallable (callee : ValueId)
  | badScale (scale : UInt8)
  | misfit (op : Op) (operands : List Operand)
  | sealed (function : String)
  | danglingOperand (id : OperandId) (function : String)
  | notARegister (id : OperandId) (operand : Operand)
  | appendedTwice (block : Machine.BlockId) (function : String)
  | danglingMachineBlock (block : Machine.BlockId) (function : String)
  | unsealed (function : String)
  | danglingMachineFunction (id : Machine.FuncId)
  | relocationOutside (offset : UInt64) (length : Nat) (image : String)
  | usedBeforeLowered (value : ValueId) (inst : InstId) (function : String)
  | foreignArgument (value : ValueId) (owner : IR.FuncId) (function : String)
  | missingArgument (function : String) (index : UInt32)
  | noFunction
  | noInsertionBlock (function : String)
  | loweredTwice (value : ValueId) (function : String)
  | foreignBlock (block : IR.BlockId) (function : String)
  | phiWithoutRegister (phi : ValueId)
  | phiFromUnlowered (phi : ValueId) (pred : IR.BlockId)
  | bytesTooLong (length : Nat) (size : UInt64) (value : ValueId)
  | notAnInitializer (value : ValueId) (kind : ValueKind)
  | memberCount (value : ValueId) (members fields : Nat)
  | elementCount (value : ValueId) (elements : Nat) (length : UInt64)
  | notAnAggregate (value : ValueId) (ty : Ty)
  | overrun (length : Nat) (stop : UInt64)
  | notBinary (opcode : Opcode) (value : ValueId)
  | notUnary (opcode : Opcode) (value : ValueId)
  | noSignExtension (storage : Storage)
  | noCallee (call : ValueId)
  | malformedCondBr (value : ValueId)
  | returnsFromVoid (value : ValueId) (function : String)
  | malformedRet (value : ValueId)
  | doesNotNarrow (value : ValueId) (source target : Storage)
  | doesNotWiden (opcode : Opcode) (value : ValueId) (source target : Storage)
  | noBasePointer (gep : ValueId)
  | variableField (gep : ValueId)
  | fieldOutOfRange (gep : ValueId) (field : Int64)
  | gepOverflow (gep : ValueId)
  | notIndexable (gep : ValueId) (ty : Ty)
  | narrowIndex (index : OperandId)
  | allocaNotPointer (value : ValueId)
  | allocaVariable (value : ValueId)
  | malformedAlloca (value : ValueId)
  | allocaNegative (value : ValueId) (count : Int64)

/-- The cause of a failed operation. -/
inductive Failure
  | unsupported (what : Unsupported)
  | allocation (cause : Allocation)
  | generic (text : String)
  | violation (broken : Violation)
  | overflow (operation : Overflow)
  /-- A line is indented further than a listing allows. -/
  | indentation

namespace Failure

/-- Runs word arithmetic where failures are expected. -/
def ofWord {α : Type} : Except Overflow α → Except Failure α
  | .ok a => .ok a
  | .error operation => .error (.overflow operation)

/-- After a refusal a session goes on; after anything else it is over. -/
def isRefusal : Failure → Bool
  | unsupported _ | allocation _ | generic _ => true
  | violation _ | overflow _ | indentation => false

end Failure

/-- Fails with a broken invariant. -/
def violate {α : Type} (broken : Violation) : Except Failure α :=
  .error (.violation broken)

/-- Fails with a broken invariant unless the condition holds. -/
def require (condition : Bool) (broken : Violation) : Except Failure Unit :=
  if condition then .ok () else violate broken

end InstSelect
