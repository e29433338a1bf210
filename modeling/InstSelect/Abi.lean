import InstSelect.Failure

/-!
# The target's calling convention

Register assignment, shadow space and naming rules of the Windows x64 target, all
adjustable. The caller's frame holds one shadow slot per register argument, above the
saved frame pointer and the return address. Functions whose name begins with the intrinsic
marker stand for runtime routines.
-/

namespace InstSelect

open Machine (PhysReg)

/-- Runtime routines that intrinsic calls are redirected to. -/
inductive Routine
  | memset
  | memcpy
  | memmove
deriving DecidableEq, Repr

namespace Routine

/-- The symbol of a routine, which is also the intrinsic's name after the marker. -/
def symbol : Routine → String
  | memset => "memset"
  | memcpy => "memcpy"
  | memmove => "memmove"

/-- The routine behind an intrinsic, by its name after the marker. -/
def ofStem? (stem : String) : Option Routine :=
  [memset, memcpy, memmove].find? fun r => r.symbol == stem

end Routine

/-- Calling convention and naming rules. -/
structure Abi where
  /-- Integer and pointer argument registers, in parameter order. -/
  argRegisters : List PhysReg
  returnRegister : PhysReg
  frameBase : PhysReg
  /-- Displacement of the first shadow slot from the frame base. -/
  shadowOffset : Int32
  shadowSlotSize : Int32
  /-- Outgoing space that every call site reserves, even with fewer arguments. -/
  minCallStack : UInt32
  /-- The marker of intrinsics; there are none if it is empty. -/
  intrinsicMarker : String
deriving DecidableEq, Repr

namespace Abi

/-- The Windows x64 convention. -/
def win64 : Abi where
  argRegisters := [.rcx, .rdx, .r8, .r9]
  returnRegister := .rax
  frameBase := .rbp
  shadowOffset := 16
  shadowSlotSize := 8
  minCallStack := 32
  intrinsicMarker := "__builtin_"

/--
Frame displacement of the shadow slot of argument `index`, counted in a signed 32-bit
word.
-/
def shadowDisp (abi : Abi) (index : Nat) : Except Overflow Int32 := do
  let distance ← Word.mulI32 abi.shadowSlotSize (Int32.ofNat index)
  Word.addI32 abi.shadowOffset distance

/-- Bytes of outgoing stack that a call with `count` arguments reserves. -/
def callStackSize (abi : Abi) (count : Nat) : Except Overflow UInt32 := do
  let needed ← Word.mulU32 (UInt32.ofNat count) abi.shadowSlotSize.toUInt32
  pure (max needed abi.minCallStack)

/-- The name of an intrinsic after the marker; `none` for any other name. -/
def stem? (abi : Abi) (name : String) : Option String :=
  let marker := abi.intrinsicMarker.toList
  if !marker.isEmpty && marker.isPrefixOf name.toList then
    some (String.ofList (name.toList.drop marker.length))
  else none

/-- Whether a name is an intrinsic's. -/
def isIntrinsic (abi : Abi) (name : String) : Bool := (abi.stem? name).isSome

/-- The linker-visible name of a function: an intrinsic goes by its runtime routine. -/
def symbolName (abi : Abi) (name : String) : Except Failure String :=
  match abi.stem? name with
  | none => .ok name
  | some stem =>
    match Routine.ofStem? stem with
    | some routine => .ok routine.symbol
    | none => .error (.unsupported (.intrinsic name))

end Abi

end InstSelect
