import InstSelect.Named

/-!
# Storage classes, registers and condition codes

What a machine value is held in: its storage class, the physical registers with their
names at each width, and the condition codes of `setcc` and `jcc`.
-/

namespace InstSelect.Machine

/-- Storage class of a machine value. -/
inductive Storage
  | void
  | i8
  | i16
  | i32
  | i64
  | ptr
  | f32
  | f64
deriving DecidableEq, Repr

instance : Named Storage where
  members := [.void, .i8, .i16, .i32, .i64, .ptr, .f32, .f64]
  ident
    | .void => "Void"
    | .i8 => "I8"
    | .i16 => "I16"
    | .i32 => "I32"
    | .i64 => "I64"
    | .ptr => "Ptr"
    | .f32 => "F32"
    | .f64 => "F64"

namespace Storage

/-- The spelling of a class in listings. -/
def text : Storage → String
  | void => "void"
  | i8 => "i8"
  | i16 => "i16"
  | i32 => "i32"
  | i64 => "i64"
  | ptr => "ptr"
  | f32 => "f32"
  | f64 => "f64"

instance : ToString Storage := ⟨text⟩

/-- Size in bytes. -/
def size : Storage → UInt32
  | void => 0
  | i8 => 1
  | i16 => 2
  | i32 | f32 => 4
  | i64 | ptr | f64 => 8

/-- Size in bits. -/
def bits (s : Storage) : UInt32 := s.size * 8

/-- Floating-point classes. -/
def isFloat : Storage → Bool
  | f32 | f64 => true
  | _ => false

/-- Integer classes; pointers are among them. -/
def isInteger : Storage → Bool
  | i8 | i16 | i32 | i64 | ptr => true
  | _ => false

/-- The integer class of exactly the given number of bytes. -/
def integerOfSize? (bytes : UInt64) : Option Storage :=
  if bytes = 1 then some i8
  else if bytes = 2 then some i16
  else if bytes = 4 then some i32
  else if bytes = 8 then some i64
  else none

end Storage

/-- The sixteen general-purpose registers. -/
inductive PhysReg
  | rax
  | rcx
  | rdx
  | rbx
  | rsp
  | rbp
  | rsi
  | rdi
  | r8
  | r9
  | r10
  | r11
  | r12
  | r13
  | r14
  | r15
deriving DecidableEq, Repr

instance : Named PhysReg where
  members := [.rax, .rcx, .rdx, .rbx, .rsp, .rbp, .rsi, .rdi, .r8, .r9, .r10, .r11,
    .r12, .r13, .r14, .r15]
  ident
    | .rax => "Rax"
    | .rcx => "Rcx"
    | .rdx => "Rdx"
    | .rbx => "Rbx"
    | .rsp => "Rsp"
    | .rbp => "Rbp"
    | .rsi => "Rsi"
    | .rdi => "Rdi"
    | .r8 => "R8"
    | .r9 => "R9"
    | .r10 => "R10"
    | .r11 => "R11"
    | .r12 => "R12"
    | .r13 => "R13"
    | .r14 => "R14"
    | .r15 => "R15"

namespace PhysReg

/-- The four names of a register: 64, 32, 16 and 8 bits wide. -/
def names : PhysReg → String × String × String × String
  | rax => ("rax", "eax", "ax", "al")
  | rcx => ("rcx", "ecx", "cx", "cl")
  | rdx => ("rdx", "edx", "dx", "dl")
  | rbx => ("rbx", "ebx", "bx", "bl")
  | rsp => ("rsp", "esp", "sp", "spl")
  | rbp => ("rbp", "ebp", "bp", "bpl")
  | rsi => ("rsi", "esi", "si", "sil")
  | rdi => ("rdi", "edi", "di", "dil")
  | r8 => ("r8", "r8d", "r8w", "r8b")
  | r9 => ("r9", "r9d", "r9w", "r9b")
  | r10 => ("r10", "r10d", "r10w", "r10b")
  | r11 => ("r11", "r11d", "r11w", "r11b")
  | r12 => ("r12", "r12d", "r12w", "r12b")
  | r13 => ("r13", "r13d", "r13w", "r13b")
  | r14 => ("r14", "r14d", "r14w", "r14b")
  | r15 => ("r15", "r15d", "r15w", "r15b")

/-- Assembly name of a register viewed at a storage class. -/
def name (r : PhysReg) (s : Storage) : String :=
  let (quad, double, word, byte) := r.names
  match s with
  | .i32 | .f32 => double
  | .i16 => word
  | .i8 => byte
  | _ => quad

end PhysReg

/-- Condition codes. -/
inductive Cond
  | e
  | ne
  | l
  | le
  | g
  | ge
  | b
  | be
  | a
  | ae
deriving DecidableEq, Repr

instance : Named Cond where
  members := [.e, .ne, .l, .le, .g, .ge, .b, .be, .a, .ae]
  ident
    | .e => "E"
    | .ne => "Ne"
    | .l => "L"
    | .le => "Le"
    | .g => "G"
    | .ge => "Ge"
    | .b => "B"
    | .be => "Be"
    | .a => "A"
    | .ae => "Ae"

namespace Cond

/-- The suffix of a conditional instruction. -/
def text : Cond → String
  | e => "e"
  | ne => "ne"
  | l => "l"
  | le => "le"
  | g => "g"
  | ge => "ge"
  | b => "b"
  | be => "be"
  | a => "a"
  | ae => "ae"

/-- The condition on `cmp y, x` that holds exactly when this one holds on `cmp x, y`. -/
def swap : Cond → Cond
  | e => e
  | ne => ne
  | l => g
  | le => ge
  | g => l
  | ge => le
  | b => a
  | be => ae
  | a => b
  | ae => be

@[simp]
theorem swap_swap (c : Cond) : c.swap.swap = c := by
  cases c <;> rfl

end Cond

end InstSelect.Machine
