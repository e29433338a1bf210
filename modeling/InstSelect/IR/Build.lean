import InstSelect.IR.Arena

/-!
# Building modules

Operations that extend a module. Each returns the id of the node it created together with
the extended module. Instructions are appended at a `Cursor`, the block that was last
positioned at.
-/

namespace InstSelect.IR

namespace Module

def pushValue (m : Module) (ty : Ty) (kind : ValueKind) : ValueId × Module :=
  (⟨UInt32.ofNat m.values.size⟩, { m with values := m.values.push ⟨ty, kind⟩ })

/-- Adds one value per parameter of function `func`, the first having index `index`. -/
def pushParams (func : FuncId) (index : Nat) : List Ty → Module → List ValueId × Module
  | [], m => ([], m)
  | ty :: rest, m =>
    let (id, m) := m.pushValue ty (.argument func (UInt32.ofNat index))
    let (ids, m) := pushParams func (index + 1) rest m
    (id :: ids, m)

/-- Adds a function, with a value for itself and one for each parameter. -/
def addFunction (m : Module) (name : String) (sig : FnSig) (isExternal : Bool) :
    FuncId × Module :=
  let id : FuncId := ⟨UInt32.ofNat m.functions.size⟩
  let (value, m) := m.pushValue (.ptr (.ofSig sig)) (.function id)
  let (params, m) := pushParams id 0 sig.params m
  (id, { m with functions := m.functions.push ⟨name, sig, params, [], isExternal,
    value⟩ })

/-- Declares a function without a body. -/
def declareFunction (m : Module) (name : String) (sig : FnSig) : FuncId × Module :=
  m.addFunction name sig true

/-- Adds a function whose blocks are yet to be appended. -/
def defineFunction (m : Module) (name : String) (sig : FnSig) : FuncId × Module :=
  m.addFunction name sig false

def addGlobal (m : Module) (name : String) (ty : Ty) (initializer : Option ValueId) :
    GlobalId × Module :=
  let id : GlobalId := ⟨UInt32.ofNat m.globals.size⟩
  let (value, m) := m.pushValue (.ptr ty) (.global id)
  (id, { m with globals := m.globals.push ⟨name, ty, initializer, none, value⟩ })

/-- Gives a global an alignment of its own. -/
def setGlobalAlignment (m : Module) (global : GlobalId) (alignment : UInt32) :
    Except Failure Module := do
  let g ← m.global global
  pure { m with
    globals := m.globals.setIfInBounds global.index.toNat
      { g with alignment := some alignment } }

/-- Appends an empty block to a function with a body. -/
def appendBlock (m : Module) (func : FuncId) (name : Option String) :
    Except Failure (BlockId × Module) := do
  let f ← m.function func
  require (!f.isExternal) (.externalBody f.name)
  let id : BlockId := ⟨UInt32.ofNat m.blocks.size⟩
  let (value, m) := m.pushValue .void (.block id)
  pure (id, { m with
    blocks := m.blocks.push ⟨func, name, [], value⟩
    functions := m.functions.setIfInBounds func.index.toNat
      { f with blocks := f.blocks ++ [id] } })

def appendInst (m : Module) (block : BlockId) (opcode : Opcode) (operands : List ValueId)
    (ty : Ty) : Except Failure (ValueId × Module) := do
  let b ← m.block block
  let id : InstId := ⟨UInt32.ofNat m.insts.size⟩
  let (value, m) := m.pushValue ty (.instruction id)
  pure (value, { m with
    insts := m.insts.push ⟨opcode, operands, ty, block, value⟩
    blocks := m.blocks.setIfInBounds block.index.toNat
      { b with insts := b.insts ++ [id] } })

/-- The value that refers to a function. -/
def funcValue (m : Module) (func : FuncId) : Except Failure ValueId := do
  let f ← m.function func
  pure f.value

def globalValue (m : Module) (global : GlobalId) : Except Failure ValueId := do
  let g ← m.global global
  pure g.value

def blockValue (m : Module) (block : BlockId) : Except Failure ValueId := do
  let b ← m.block block
  pure b.value

/-- The value of a function's parameter. -/
def arg (m : Module) (func : FuncId) (index : Nat) : Except Failure ValueId := do
  let f ← m.function func
  match f.params[index]? with
  | some value => pure value
  | none => violate (.missingParameter func index)

/-- The instruction behind a value that is a phi. -/
def phiInst (m : Module) (phi : ValueId) : Except Failure (InstId × Inst) := do
  let v ← m.value phi
  match v.kind with
  | .instruction id =>
    let i ← m.inst id
    if i.opcode = .phi then pure (id, i) else violate (.notAPhi phi)
  | _ => violate (.notAPhi phi)

/-- Extends a phi by one more incoming pair, for values defined after the phi itself. -/
def addPhiIncoming (m : Module) (phi value : ValueId) (pred : BlockId) :
    Except Failure Module := do
  let (id, i) ← m.phiInst phi
  let pred ← m.blockValue pred
  pure { m with
    insts := m.insts.setIfInBounds id.index.toNat
      { i with operands := i.operands ++ [value, pred] } }

def constant (m : Module) (ty : Ty) (c : Constant) : ValueId × Module :=
  m.pushValue ty (.constant c)

/-- Adds an integer constant. -/
def constInt (m : Module) (ty : Ty) (value : Int64) : ValueId × Module :=
  m.constant ty (.int value)

/-- Adds a boolean constant. -/
def constBool (m : Module) (value : Bool) : ValueId × Module :=
  m.constInt .bool (if value then 1 else 0)

/-- Adds a byte string, whose type is an array of bytes. -/
def constBytes (m : Module) (data : List UInt8) : ValueId × Module :=
  m.constant (.array (.uint .w8) (UInt64.ofNat data.length)) (.bytes data)

end Module

/-- Where instructions are appended: a block, once one has been chosen. -/
abbrev Cursor := Option BlockId

namespace Cursor

/-- Appends an instruction at the cursor. -/
def push (c : Cursor) (m : Module) (opcode : Opcode) (operands : List ValueId) (ty : Ty) :
    Except Failure (ValueId × Module) :=
  match c with
  | some block => m.appendInst block opcode operands ty
  | none => violate .unpositioned

/--
Arithmetic, bitwise and shift instructions; the result has the type of the left operand.
-/
def binary (c : Cursor) (m : Module) (opcode : Opcode) (lhs rhs : ValueId) :
    Except Failure (ValueId × Module) := do
  c.push m opcode [lhs, rhs] (← m.valueTy lhs)

def cmp (c : Cursor) (m : Module) (predicate : Predicate) (lhs rhs : ValueId) :
    Except Failure (ValueId × Module) :=
  c.push m (.cmp predicate) [lhs, rhs] .bool

/-- Frame memory for one object. -/
def alloca (c : Cursor) (m : Module) (ty : Ty) : Except Failure (ValueId × Module) :=
  c.push m .alloca [] (.ptr ty)

/-- Frame memory for several objects. -/
def allocaArray (c : Cursor) (m : Module) (ty : Ty) (count : ValueId) :
    Except Failure (ValueId × Module) :=
  c.push m .alloca [count] (.ptr ty)

def load (c : Cursor) (m : Module) (ty : Ty) (ptr : ValueId) :
    Except Failure (ValueId × Module) :=
  c.push m .load [ptr] ty

def store (c : Cursor) (m : Module) (value ptr : ValueId) :
    Except Failure (ValueId × Module) :=
  c.push m .store [value, ptr] .void

/-- An address computation. -/
def gep (c : Cursor) (m : Module) (ty : Ty) (base : ValueId) (indices : List ValueId) :
    Except Failure (ValueId × Module) :=
  c.push m .gep (base :: indices) ty

/-- Operands of a phi: values interleaved with the references to their blocks. -/
def phiOperands (m : Module) : List (ValueId × BlockId) → Except Failure (List ValueId)
  | [] => pure []
  | (value, block) :: rest => do
    let pred ← m.blockValue block
    let others ← phiOperands m rest
    pure (value :: pred :: others)

def phi (c : Cursor) (m : Module) (ty : Ty) (incoming : List (ValueId × BlockId)) :
    Except Failure (ValueId × Module) := do
  c.push m .phi (← phiOperands m incoming) ty

/-- A call; the result has the return type of the callee's signature. -/
def call (c : Cursor) (m : Module) (callee : ValueId) (args : List ValueId) :
    Except Failure (ValueId × Module) := do
  match (← m.valueTy callee).fnSig? with
  | some sig => c.push m .call (callee :: args) sig.ret
  | none => violate (.notCallable callee)

def cast (c : Cursor) (m : Module) (opcode : Opcode) (value : ValueId) (ty : Ty) :
    Except Failure (ValueId × Module) :=
  c.push m opcode [value] ty

/-- An unconditional branch. -/
def br (c : Cursor) (m : Module) (target : BlockId) :
    Except Failure (ValueId × Module) := do
  c.push m .br [← m.blockValue target] .void

def condBr (c : Cursor) (m : Module) (condition : ValueId) (ifTrue ifFalse : BlockId) :
    Except Failure (ValueId × Module) := do
  let onTrue ← m.blockValue ifTrue
  let onFalse ← m.blockValue ifFalse
  c.push m .condBr [condition, onTrue, onFalse] .void

def ret (c : Cursor) (m : Module) (value : Option ValueId) :
    Except Failure (ValueId × Module) :=
  c.push m .ret value.toList .void

end Cursor

end InstSelect.IR
