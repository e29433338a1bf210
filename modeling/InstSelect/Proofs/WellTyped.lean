import InstSelect.Abi
import InstSelect.Proofs.Meaning

/-!
# Well-typed functions

Typing rules of the source IR, as far as they concern the selection of code for one
function: which values an instruction may use at its place in the layout, and which types
its operands and its result have. The rules are about the module alone and do not speak of
machine code.

An operand is an own argument, a scalar constant, the address of a function or of a
global, or the result of an instruction that stands earlier in the layout; only the inputs
of phis may stand anywhere.
-/

namespace InstSelect.IR

/-- Integers, booleans and pointers. -/
def Ty.isScalar (ty : Ty) : Bool := ty.isInteger || ty.isPointer

/-- Constants that are a single word. -/
def Constant.isScalar : Constant → Bool
  | .int _ | .null | .zero | .undef => true
  | .float _ | .bytes _ | .aggregate _ => false

namespace Module

variable (m : Module)

/--
A value of type `ty` that function `func` can use once the instructions in `done` were
run.
-/
inductive Usable (func : FuncId) (done : InstId → Prop) (ty : Ty) (v : ValueId) : Prop
  | argument (index : UInt32) (value : m.value v = .ok ⟨ty, .argument func index⟩)
  | constant (c : Constant) (value : m.value v = .ok ⟨ty, .constant c⟩)
      (scalar : c.isScalar = true)
  | function (g : FuncId) (d : Function) (value : m.value v = .ok ⟨ty, .function g⟩)
      (function : m.function g = .ok d) (plain : Abi.win64.isIntrinsic d.name = false)
  | global (g : GlobalId) (d : Global) (value : m.value v = .ok ⟨ty, .global g⟩)
      (global : m.global g = .ok d)
  | result (id : InstId) (value : m.value v = .ok ⟨ty, .instruction id⟩)
      (before : done id)

variable {m} in
theorem Usable.valueTy {func : FuncId} {done : InstId → Prop} {ty : Ty} {v : ValueId}
    (h : m.Usable func done ty v) : m.valueTy v = .ok ty := by
  cases h with
  | argument _ value | constant _ value | function _ _ value | global _ _ value
  | result _ value =>
    rw [Module.valueTy, value]
    rfl

/-- A reference to a block of a function. -/
def OwnBlock (func : FuncId) (v : ValueId) : Prop :=
  ∃ ty b data, m.value v = .ok ⟨ty, .block b⟩ ∧ m.block b = .ok data ∧ data.func = func

/-- The count of an `alloca`: none, or a constant that is not negative. -/
inductive AllocaCount : List ValueId → Prop
  | one : AllocaCount []
  | constant {v : ValueId} {n : Int64} (value : m.constantInt v = .ok (some n))
      (nonneg : 0 ≤ n) : AllocaCount [v]

end Module

/-- Offsets that stay in the word when a 32-bit displacement is added to them. -/
def SafeOffset (offset : Int64) : Prop :=
  -2 ^ 63 + 2 ^ 31 ≤ offset.toInt ∧ offset.toInt ≤ 2 ^ 63 - 2 ^ 31

/--
Indices that lead somewhere from a type: constants that step over elements or select a
member, within safe offsets, and other values that satisfy `P`.
-/
inductive Module.Steps (m : Module) (P : ValueId → Prop) : Ty → List ValueId → Prop
  | done (ty : Ty) : Steps m P ty []
  | constant {ty element : Ty} {index : ValueId} {rest : List ValueId} {k offset : Int64}
      {size : UInt64} (into : ty = .ptr element ∨ ∃ length, ty = .array element length)
      (size_eq : element.size = .ok size) (value : m.constantInt index = .ok (some k))
      (product : k.toInt * size.toInt64.toInt = offset.toInt) (safe : SafeOffset offset)
      (steps : Steps m P element rest) : Steps m P ty (index :: rest)
  | computed {ty element : Ty} {index : ValueId} {rest : List ValueId} {size : UInt64}
      (into : ty = .ptr element ∨ ∃ length, ty = .array element length)
      (size_eq : element.size = .ok size) (value : m.constantInt index = .ok none)
      (ok : P index) (steps : Steps m P element rest) : Steps m P ty (index :: rest)
  | member {name : Option String} {fields : List Ty} {packed : Bool} {field : Ty}
      {index : ValueId} {rest : List ValueId} {k : Int64} {layout : StructLayout}
      (value : m.constantInt index = .ok (some k)) (nonneg : 0 ≤ k.toInt)
      (field_eq : fields[k.toInt.toNat]? = some field)
      (layout_eq : Ty.structLayout packed fields = .ok layout)
      (safe : SafeOffset (layout.offsets.getD k.toInt.toNat 0).toInt64)
      (steps : Steps m P field rest) :
      Steps m P (.struct name fields packed) (index :: rest)

theorem Module.Steps.imp {m : Module} {P P' : ValueId → Prop} {ty : Ty}
    {indices : List ValueId} (h : m.Steps P ty indices)
    (hP : ∀ v, P v → P' v) : m.Steps P' ty indices := by
  induction h with
  | done ty => exact .done ty
  | constant into size value product safe _ ih =>
    exact .constant into size value product safe ih
  | computed into size value ok _ ih => exact .computed into size value (hP _ ok) ih
  | member value nonneg field layout safe _ ih =>
    exact .member value nonneg field layout safe ih

/-- The operations on two integers of one type. -/
def Opcode.isArithmetic : Opcode → Bool
  | .add | .sub | .mul | .and | .or | .xor | .div | .rem => true
  | _ => false

/-- Values that a function returns: none, or one of its return type. -/
inductive Module.Returned (m : Module) (func : FuncId) (ret : Ty) (done : InstId → Prop) :
    List ValueId → Prop
  | nothing : Returned m func ret done []
  | value {v : ValueId} (scalar : ret.isScalar = true)
      (value : m.Usable func done ret v) :
      Returned m func ret done [v]

section

variable (m : Module) (func : FuncId) (done : InstId → Prop) (i : Inst)

/-- Integer arithmetic, comparisons and conversions. -/
inductive Module.Computes : Prop
  | arithmetic {l r : ValueId} (op : i.opcode.isArithmetic = true)
      (integer : i.ty.isInteger = true) (operands : i.operands = [l, r])
      (left : m.Usable func done i.ty l) (right : m.Usable func done i.ty r)
  | shift {l r : ValueId} {ty : Ty} (op : i.opcode = .shl ∨ i.opcode = .shr)
      (integer : i.ty.isInteger = true) (operands : i.operands = [l, r])
      (left : m.Usable func done i.ty l) (counts : ty.isInteger = true)
      (right : m.Usable func done ty r)
  | compare {p : Predicate} {l r : ValueId} {ty : Ty} (op : i.opcode = .cmp p)
      (result : i.ty = .bool) (operands : i.operands = [l, r])
      (scalar : ty.isScalar = true) (left : m.Usable func done ty l)
      (right : m.Usable func done ty r)
  | trunc {x : ValueId} {ty : Ty} {v w : Nat} (op : i.opcode = .trunc)
      (integer : i.ty.isInteger = true) (operands : i.operands = [x])
      (source : ty.isInteger = true) (value : m.Usable func done ty x)
      (from_width : ty.width? = some v) (to_width : i.ty.width? = some w)
      (narrows : w < v)
  | extend {x : ValueId} {ty : Ty} {v w : Nat} (op : i.opcode = .zext ∨ i.opcode = .sext)
      (integer : i.ty.isInteger = true) (operands : i.operands = [x])
      (source : ty.isInteger = true) (value : m.Usable func done ty x)
      (from_width : ty.width? = some v) (to_width : i.ty.width? = some w) (widens : v < w)
  | cast {x : ValueId} {ty : Ty} (op : i.opcode.isReinterpret = true)
      (scalar : i.ty.isScalar = true) (operands : i.operands = [x])
      (source : ty.isScalar = true) (value : m.Usable func done ty x)
      (width : ty.width? = i.ty.width?)

/-- Frame objects, loads and stores through pointers, and element addresses. -/
inductive Module.Accesses : Prop
  | alloca {pointee : Ty} {e : Extent} (op : i.opcode = .alloca)
      (result : i.ty = .ptr pointee) (extent : pointee.extent = .ok e)
      (count : m.AllocaCount i.operands)
  | load {p : ValueId} {pointee : Ty} (op : i.opcode = .load)
      (scalar : i.ty.isScalar = true) (operands : i.operands = [p])
      (pointer : m.Usable func done (.ptr pointee) p)
  | store {x p : ValueId} {ty pointee : Ty} (op : i.opcode = .store)
      (result : i.ty = .void) (operands : i.operands = [x, p])
      (scalar : ty.isScalar = true) (value : m.Usable func done ty x)
      (pointer : m.Usable func done (.ptr pointee) p)
  | gep {base : ValueId} {indices : List ValueId} {pointee reached : Ty}
      (op : i.opcode = .gep) (result : i.ty = .ptr reached)
      (operands : i.operands = base :: indices)
      (pointer : m.Usable func done (.ptr pointee) base)
      (steps : m.Steps (fun v => ∃ ty, ty.isInteger = true ∧ m.Usable func done ty v)
        (.ptr pointee) indices)

/-- Calls, branches, and returns from a function with return type `ret`. -/
inductive Module.Transfers (ret : Ty) : Prop
  | call {callee : ValueId} {args : List ValueId} {pointee : Ty} (op : i.opcode = .call)
      (result : i.ty = .void ∨ i.ty.isScalar = true)
      (operands : i.operands = callee :: args) (few : args.length ≤ 4)
      (target : m.Usable func done (.ptr pointee) callee)
      (arguments : ∀ a ∈ args, ∃ ty, ty.isScalar = true ∧ m.Usable func done ty a)
  | br {target : ValueId} (op : i.opcode = .br) (result : i.ty = .void)
      (operands : i.operands = [target]) (own : m.OwnBlock func target)
  | condBr {cond onTrue onFalse : ValueId} {ty : Ty} (op : i.opcode = .condBr)
      (result : i.ty = .void) (operands : i.operands = [cond, onTrue, onFalse])
      (integer : ty.isInteger = true) (condition : m.Usable func done ty cond)
      (own : m.OwnBlock func onTrue) (own' : m.OwnBlock func onFalse)
  | ret (op : i.opcode = .ret) (result : i.ty = .void)
      (returned : m.Returned func ret done i.operands)

/--
An instruction of a function with return type `ret`, at a place where the instructions in
`done` come first and those in `all` belong to the function.
-/
inductive Module.WellTyped (ret : Ty) (all : InstId → Prop) : Prop
  | computes (h : m.Computes func done i)
  | accesses (h : m.Accesses func done i)
  | transfers (h : m.Transfers func done i ret)
  | phi {incoming : List (ValueId × ValueId)} (op : i.opcode = .phi)
      (scalar : i.ty.isScalar = true) (operands : pairs? i.operands = some incoming)
      (inputs : ∀ p ∈ incoming, m.Usable func all i.ty p.1 ∧ m.OwnBlock func p.2)

end

variable {m : Module} {func : FuncId} {done all : InstId → Prop} {i : Inst} {ret : Ty} in
theorem Module.WellTyped.phi_inv (h : m.WellTyped func done i ret all)
    (hop : i.opcode = .phi) :
    i.ty.isScalar = true ∧ ∃ incoming, pairs? i.operands = some incoming ∧
      ∀ p ∈ incoming, m.Usable func all i.ty p.1 ∧ m.OwnBlock func p.2 := by
  cases h with
  | phi op scalar operands inputs => exact ⟨scalar, _, operands, inputs⟩
  | computes h =>
    cases h with
    | arithmetic op | compare op | trunc op | cast op =>
      rw [hop] at op
      cases op
    | shift op | extend op => rcases op with op | op <;> cases hop.symm.trans op
  | accesses h =>
    cases h with | alloca op | load op | store op | gep op => cases hop.symm.trans op
  | transfers h =>
    cases h with | call op | br op | condBr op | ret op => cases hop.symm.trans op

def Module.instsOf (m : Module) (b : BlockId) : List InstId :=
  match m.block b with
  | .ok data => data.insts
  | .error _ => []

/-- The instructions of a function, in the order of its layout. -/
def Module.order (m : Module) (f : Function) : List InstId := f.blocks.flatMap m.instsOf

/-- Number of operands of an instruction. -/
def Module.arity (m : Module) (id : InstId) : Nat :=
  match m.inst id with
  | .ok i => i.operands.length
  | .error _ => 0

/-- Number of instructions in a list and of their operands. -/
def Module.weight (m : Module) (ids : List InstId) : Nat :=
  (ids.map fun id => 1 + m.arity id).sum

/-- Number of blocks, instructions and operands of a function. -/
def Module.count (m : Module) (f : Function) : Nat :=
  f.blocks.length + m.weight (m.order f)

/--
A function whose signature is scalar and whose instructions are well-typed at their
places.
-/
structure Module.WellTypedFunction (m : Module) (func : FuncId) (f : Function) :
    Prop where
  few : f.sig.params.length ≤ 4
  params : ∀ ty ∈ f.sig.params, ty.isScalar = true
  ret : f.sig.ret = .void ∨ f.sig.ret.isScalar = true
  insts : ∀ (before after : List InstId) (id : InstId) (i : Inst),
    m.order f = before ++ id :: after →
    m.inst id = .ok i → m.WellTyped func (· ∈ before) i f.sig.ret (· ∈ m.order f)

end InstSelect.IR
