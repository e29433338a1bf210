import InstSelect.Machine.Operand

/-!
# Machine instructions

The x86-64 operations that selection emits, and the table of operand shapes each of them
accepts.
-/

namespace InstSelect.Machine

/-- Machine operations. -/
inductive Op
  | mov
  | movzx
  | movsx
  | lea
  | add
  | sub
  | imul
  | div
  | idiv
  /-- Sign-extends `ax` into `dx:ax`. -/
  | cwd
  /-- Sign-extends `eax` into `edx:eax`. -/
  | cdq
  /-- Sign-extends `rax` into `rdx:rax`. -/
  | cqo
  | and
  | or
  | xor
  | shl
  | shr
  | sar
  | cmp
  | test
  | setcc (cond : Cond)
  | jcc (cond : Cond)
  | jmp
  | call
  | ret
deriving DecidableEq, Repr

namespace Op

/-- The operations without a parameter. -/
def plain : List Op :=
  [.mov, .movzx, .movsx, .lea, .add, .sub, .imul, .div, .idiv, .cwd, .cdq, .cqo, .and,
    .or, .xor, .shl, .shr, .sar, .cmp, .test, .jmp, .call, .ret]

/-- Identifier of an operation, without its parameter. -/
def ident : Op → String
  | mov => "Mov"
  | movzx => "Movzx"
  | movsx => "Movsx"
  | lea => "Lea"
  | add => "Add"
  | sub => "Sub"
  | imul => "Imul"
  | div => "Div"
  | idiv => "Idiv"
  | cwd => "Cwd"
  | cdq => "Cdq"
  | cqo => "Cqo"
  | and => "And"
  | or => "Or"
  | xor => "Xor"
  | shl => "Shl"
  | shr => "Shr"
  | sar => "Sar"
  | cmp => "Cmp"
  | test => "Test"
  | setcc _ => "Setcc"
  | jcc _ => "Jcc"
  | jmp => "Jmp"
  | call => "Call"
  | ret => "Ret"

def mnemonic : Op → String
  | mov => "mov"
  | movzx => "movzx"
  | movsx => "movsx"
  | lea => "lea"
  | add => "add"
  | sub => "sub"
  | imul => "imul"
  | div => "div"
  | idiv => "idiv"
  | cwd => "cwd"
  | cdq => "cdq"
  | cqo => "cqo"
  | and => "and"
  | or => "or"
  | xor => "xor"
  | shl => "shl"
  | shr => "shr"
  | sar => "sar"
  | cmp => "cmp"
  | test => "test"
  | setcc cond => "set" ++ cond.text
  | jcc cond => "j" ++ cond.text
  | jmp => "jmp"
  | call => "call"
  | ret => "ret"

/-- Operations that leave the block. -/
def isTerminator : Op → Bool
  | jcc _ | jmp | ret => true
  | _ => false

end Op

/-- An instruction: an operation on operands of the function's arena. -/
structure Inst where
  op : Op
  operands : List OperandId
deriving DecidableEq, Repr

/-- The shapes of operands that instructions tell apart. -/
inductive Shape
  | reg
  | imm
  | mem
  | label
deriving DecidableEq, Repr

/-- Shape of an operand; frame slots and symbols are memory. -/
def Operand.shape (o : Operand) : Shape :=
  match o.form with
  | .phys _ | .virt _ => .reg
  | .imm _ => .imm
  | .label _ => .label
  | .mem _ | .slot _ _ _ | .symbol _ => .mem

namespace Shape

/-- A register or memory. -/
def isPlace : Shape → Bool
  | reg | mem => true
  | imm | label => false

/-- A register, an immediate or memory. -/
def isSource : Shape → Bool
  | reg | imm | mem => true
  | label => false

end Shape

namespace Op

/-- Operands that an operation of no, one or two operands accepts. -/
def accepts (op : Op) (operands : List Operand) : Bool :=
  match op, operands with
  | cwd, [] | cdq, [] | cqo, [] | ret, [] => true
  | jcc _, [target] | jmp, [target] => target.shape = .label
  | call, [x] | div, [x] | idiv, [x] => x.shape.isPlace
  | setcc _, [dst] => dst.shape.isPlace && dst.storage.bits = 8
  | lea, [dst, src] => dst.shape = .reg && src.shape = .mem
  | movzx, [dst, src] | movsx, [dst, src] =>
    dst.shape = .reg && src.shape.isPlace && src.storage.bits < dst.storage.bits
  | imul, [dst, src] => dst.shape = .reg && src.shape.isPlace
  | shl, [dst, count] | shr, [dst, count] | sar, [dst, count] =>
    dst.shape.isPlace && (count.shape = .imm || count.physReg? = some .rcx)
  | test, [x, y] => x.shape.isPlace && (y.shape = .reg || y.shape = .imm)
  | mov, [dst, src] | add, [dst, src] | sub, [dst, src] | and, [dst, src] | or, [dst, src]
  | xor, [dst, src] | cmp, [dst, src] =>
    dst.shape.isPlace && src.shape.isSource && !(dst.shape = .mem && src.shape = .mem)
  | _, _ => false

end Op

end InstSelect.Machine
