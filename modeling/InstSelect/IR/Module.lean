import InstSelect.Named
import InstSelect.Numeral.Binary64
import InstSelect.IR.Ty

/-!
# Source modules

An SSA module. Values, instructions, blocks, functions and globals live in arenas and are
addressed by their index; nothing ever leaves an arena, so an id stays valid and
identifies its node.

Operand conventions of instructions:

* binary operations and comparisons: `[lhs, rhs]`
* `alloca`: `[]` or `[count]`; the result type is a pointer to the allocated type
* `load`: `[ptr]`; `store`: `[value, ptr]`
* `gep`: `[base, index…]`
* `phi`: `[value0, block0, value1, block1, …]`
* `call`: `[callee, argument…]`
* casts: `[value]`; the result type is the target type
* `br`: `[target]`; `condBr`: `[condition, ifTrue, ifFalse]`; `ret`: `[]` or `[value]`
-/

namespace InstSelect.IR

open Numeral

/-- Index of a value. -/
structure ValueId where
  index : UInt32
deriving DecidableEq, Repr, Inhabited

/-- Index of an instruction. -/
structure InstId where
  index : UInt32
deriving DecidableEq, Repr, Inhabited

/-- Index of a block. -/
structure BlockId where
  index : UInt32
deriving DecidableEq, Repr, Inhabited

/-- Index of a function. -/
structure FuncId where
  index : UInt32
deriving DecidableEq, Repr, Inhabited

/-- Index of a global variable. -/
structure GlobalId where
  index : UInt32
deriving DecidableEq, Repr, Inhabited

instance : ToString ValueId := ⟨fun id => s!"%{id.index.toNat}"⟩

instance : ToString InstId := ⟨fun id => s!"inst{id.index.toNat}"⟩

instance : ToString BlockId := ⟨fun id => s!"bb{id.index.toNat}"⟩

instance : ToString FuncId := ⟨fun id => s!"fn{id.index.toNat}"⟩

instance : ToString GlobalId := ⟨fun id => s!"global{id.index.toNat}"⟩

/-- A compile-time constant. -/
inductive Constant
  | int (value : Int64)
  | float (value : Binary64)
  | null
  | undef
  /-- The all-zero value of the constant's type. -/
  | zero
  /-- Raw bytes, such as a string literal. -/
  | bytes (data : List UInt8)
  /-- Struct members or array elements, in order. -/
  | aggregate (elements : List ValueId)
deriving DecidableEq, Repr

/-- Where a value comes from. -/
inductive ValueKind
  | instruction (id : InstId)
  | argument (func : FuncId) (index : UInt32)
  | constant (value : Constant)
  | function (id : FuncId)
  | global (id : GlobalId)
  | block (id : BlockId)
deriving DecidableEq, Repr

/-- A value: its type and its origin. -/
structure Value where
  ty : Ty
  kind : ValueKind

/-- Comparison predicates. -/
inductive Predicate
  | eq
  | ne
  | lt
  | le
  | gt
  | ge
deriving DecidableEq, Repr

instance : Named Predicate where
  members := [.eq, .ne, .lt, .le, .gt, .ge]
  ident
    | .eq => "Eq"
    | .ne => "Ne"
    | .lt => "Lt"
    | .le => "Le"
    | .gt => "Gt"
    | .ge => "Ge"

/-- Operations of the source IR. -/
inductive Opcode
  | add
  | sub
  | mul
  | div
  | rem
  | and
  | or
  | xor
  | shl
  | shr
  | cmp (predicate : Predicate)
  | alloca
  | load
  | store
  | gep
  | phi
  | call
  | trunc
  | zext
  | sext
  | ptrToInt
  | intToPtr
  | bitcast
  | fadd
  | fsub
  | fmul
  | fdiv
  | fpToSi
  | siToFp
  | fpExt
  | fpTrunc
  | br
  | condBr
  | ret
deriving DecidableEq, Repr

namespace Opcode

/-- Casts that only change how bits are viewed. -/
def isReinterpret : Opcode → Bool
  | ptrToInt | intToPtr | bitcast => true
  | _ => false

/-- The operations without a parameter. -/
def plain : List Opcode :=
  [.add, .sub, .mul, .div, .rem, .and, .or, .xor, .shl, .shr, .alloca, .load, .store,
    .gep, .phi,
    .call, .trunc, .zext, .sext, .ptrToInt, .intToPtr, .bitcast, .fadd, .fsub,
    .fmul, .fdiv, .fpToSi, .siToFp, .fpExt, .fpTrunc, .br, .condBr, .ret]

/-- Identifier of an operation, without its parameter. -/
def ident : Opcode → String
  | add => "Add"
  | sub => "Sub"
  | mul => "Mul"
  | div => "Div"
  | rem => "Rem"
  | and => "And"
  | or => "Or"
  | xor => "Xor"
  | shl => "Shl"
  | shr => "Shr"
  | cmp _ => "Cmp"
  | alloca => "Alloca"
  | load => "Load"
  | store => "Store"
  | gep => "Gep"
  | phi => "Phi"
  | call => "Call"
  | trunc => "Trunc"
  | zext => "ZExt"
  | sext => "SExt"
  | ptrToInt => "PtrToInt"
  | intToPtr => "IntToPtr"
  | bitcast => "Bitcast"
  | fadd => "FAdd"
  | fsub => "FSub"
  | fmul => "FMul"
  | fdiv => "FDiv"
  | fpToSi => "FpToSi"
  | siToFp => "SiToFp"
  | fpExt => "FpExt"
  | fpTrunc => "FpTrunc"
  | br => "Br"
  | condBr => "CondBr"
  | ret => "Ret"

/-- Operations that end a block. -/
def isTerminator : Opcode → Bool
  | br | condBr | ret => true
  | _ => false

/-- Operations that compute on floating-point values. -/
def isFloatOp : Opcode → Bool
  | fadd | fsub | fmul | fdiv | fpToSi | siToFp | fpExt | fpTrunc => true
  | _ => false

end Opcode

/-- An instruction, the block it stands in and the value it defines. -/
structure Inst where
  opcode : Opcode
  operands : List ValueId
  ty : Ty
  block : BlockId
  value : ValueId

/-- A basic block of a function; `value` refers to it as a branch target. -/
structure Block where
  func : FuncId
  name : Option String
  insts : List InstId
  value : ValueId
deriving DecidableEq, Repr

/-- A function; an external one is declared without a body. -/
structure Function where
  name : String
  sig : FnSig
  params : List ValueId
  blocks : List BlockId
  isExternal : Bool
  value : ValueId

/--
A global variable; `ty` is the type of the stored object, `value` the pointer to it.
-/
structure Global where
  name : String
  ty : Ty
  initializer : Option ValueId
  alignment : Option UInt32
  value : ValueId

/-- A whole module. -/
structure Module where
  name : String
  values : Array Value
  insts : Array Inst
  blocks : Array Block
  functions : Array Function
  globals : Array Global

namespace Module

/-- The module of a name, with nothing in it. -/
def empty (name : String) : Module := ⟨name, #[], #[], #[], #[], #[]⟩

/-- Ids of the functions, in declaration order. -/
def functionIds (m : Module) : List FuncId :=
  (List.range m.functions.size).map fun i => ⟨UInt32.ofNat i⟩

/-- Ids of the globals, in declaration order. -/
def globalIds (m : Module) : List GlobalId :=
  (List.range m.globals.size).map fun i => ⟨UInt32.ofNat i⟩

end Module

end InstSelect.IR
