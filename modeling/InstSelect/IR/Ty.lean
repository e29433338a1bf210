import InstSelect.Named

/-!
# Types of the source IR

`Ty` is the type language of values. Struct and function types carry their parts inline;
`FnSig` is the same data as a record, for declarations.
-/

namespace InstSelect.IR

/-- Width of an integer type. -/
inductive Width
  | w8
  | w16
  | w32
  | w64
deriving DecidableEq, Repr

namespace Width

/-- All widths, ascending. -/
def all : List Width := [.w8, .w16, .w32, .w64]

/-- Number of bits. -/
def bits : Width → UInt32
  | w8 => 8
  | w16 => 16
  | w32 => 32
  | w64 => 64

/-- Identifier of the signed type of a width. -/
def signedTag (w : Width) : String := s!"I{w.bits.toNat}"

/-- Identifier of the unsigned type of a width. -/
def unsignedTag (w : Width) : String := s!"U{w.bits.toNat}"

end Width

/-- Static type of an IR value. -/
inductive Ty
  | void
  | bool
  | int (width : Width)
  | uint (width : Width)
  | f32
  | f64
  | ptr (pointee : Ty)
  | array (element : Ty) (length : UInt64)
  | struct (name : Option String) (fields : List Ty) (packed : Bool)
  | function (params : List Ty) (ret : Ty) (variadic : Bool)
  /-- The type of a type; only meaningful before selection. -/
  | type
deriving Inhabited

/-- A function signature. -/
structure FnSig where
  params : List Ty
  ret : Ty
  isVariadic : Bool
deriving Inhabited

namespace Ty

/-- The type of functions with a signature. -/
def ofSig (sig : FnSig) : Ty := .function sig.params sig.ret sig.isVariadic

/-- No value at all. -/
def isVoid : Ty → Bool
  | void => true
  | _ => false

/-- Booleans count as integers. -/
def isInteger : Ty → Bool
  | bool | int _ | uint _ => true
  | _ => false

/-- Floating-point types. -/
def isFloat : Ty → Bool
  | f32 | f64 => true
  | _ => false

def isPointer : Ty → Bool
  | ptr _ => true
  | _ => false

/--
Signed integers compare, divide and shift as signed; everything else (unsigned, booleans,
pointers) is unsigned.
-/
def isSigned : Ty → Bool
  | int _ => true
  | _ => false

/-- What a pointer points to. -/
def pointee? : Ty → Option Ty
  | ptr inner => some inner
  | _ => none

/-- Signature of a function type or of a pointer to one. -/
def fnSig? : Ty → Option FnSig
  | function params ret variadic => some ⟨params, ret, variadic⟩
  | ptr (function params ret variadic) => some ⟨params, ret, variadic⟩
  | _ => none

/-- Width in bits of the types that have one. -/
def bits? : Ty → Option UInt32
  | bool => some 8
  | int width | uint width => some width.bits
  | f32 => some 32
  | f64 | ptr _ => some 64
  | _ => none

end Ty

end InstSelect.IR
