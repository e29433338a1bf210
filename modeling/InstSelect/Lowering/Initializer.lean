import InstSelect.Abi
import InstSelect.IR.Arena
import InstSelect.IR.Layout
import InstSelect.Machine.Program

/-!
# Initial data

The data image of a global: its initializer's bytes, laid out by the global's type. A
constant is written at the current end of the image and padded with zeros to the size of
its type; members and elements are padded up to their offset first. The walk follows the
type, so it ends however the constants refer to each other.
-/

namespace InstSelect.Lowering

open IR (ValueId Ty Constant)
open Machine (Image Allocator)

/-- Bytes of an address. -/
def pointerSize : UInt64 := 8

/-- Pads an image with zeros up to an offset, which it must not have passed. -/
def padTo [Allocator] (i : Image) (stop : UInt64) : Except Failure Image := do
  require (i.size ≤ stop) (.overrun i.data.size stop)
  if i.size < stop then
    let (_, i) ← i.appendZeros (stop - i.size)
    pure i
  else pure i

/-- Appends a zero word that the linker replaces by a symbol's address. -/
def appendPointer [Allocator] (i : Image) (symbol : String) : Except Failure Image := do
  let (offset, i) ← i.appendZeros pointerSize
  i.addRelocation offset symbol

/--
Appends the bytes of a constant without parts; aggregates are written by their type
instead.
-/
def appendScalar [Allocator] (i : Image) (value : ValueId) (ty : Ty) (size : UInt64)
    (c : Constant) : Except Failure Image := do
  match c with
  | .null | .zero | .undef => pure (← i.appendZeros size).2
  | .int n => pure (← i.appendData (Word.bytesLE n.toUInt64 (min size.toNat 8))).2
  | .float x =>
    match ty with
    | .f32 => pure (← i.appendData (Word.bytesLE x.toBinary32.toUInt64 4)).2
    | _ => pure (← i.appendData (Word.bytesLE x.bits 8)).2
  | .bytes data =>
    require (data.length ≤ size.toNat) (.bytesTooLong data.length size value)
    pure (← i.appendData data).2
  | .aggregate _ => violate (.notAnAggregate value ty)

/--
Appends what a leaf of an initializer stands for: constant bytes or the address of a
symbol.
-/
def appendLeaf [Allocator] (m : IR.Module) (abi : Abi) (i : Image) (value : ValueId)
    (ty : Ty) (size : UInt64) (kind : IR.ValueKind) : Except Failure Image := do
  match kind with
  | .constant c => appendScalar i value ty size c
  | .function func =>
    let f ← m.function func
    appendPointer i (← abi.symbolName f.name)
  | .global global =>
    let g ← m.global global
    appendPointer i g.name
  | other => violate (.notAnInitializer value other)

/-- Closes a constant that began at `start`, padding it to its size. -/
def padFrom [Allocator] (start size : UInt64) (i : Image) : Except Failure Image := do
  padTo i (← Failure.ofWord (Word.addU64 start size))

/-- The offset of element `index` of an array that begins at `start`. -/
def elementStart (start stride : UInt64) (index : Nat) : Except Overflow UInt64 := do
  let distance ← Word.mulU64 stride (UInt64.ofNat index)
  Word.addU64 start distance

mutual

/-- Appends a value viewed as a type, padded to the type's size. -/
def appendConstant [Allocator] (m : IR.Module) (abi : Abi) :
    Ty → ValueId → Image → Except Failure Image
  | .struct name fields packed, value, i => do
    let start := i.size
    let size ← Failure.ofWord (Ty.size (.struct name fields packed))
    match (← m.value value).kind with
    | .constant (.aggregate elements) =>
      require (elements.length = fields.length)
        (.memberCount value elements.length fields.length)
      let layout ← Failure.ofWord (Ty.structLayout packed fields)
      padFrom start size (← appendMembers m abi start fields elements layout.offsets i)
    | kind =>
      padFrom start size
        (← appendLeaf m abi i value (.struct name fields packed) size kind)
  | .array element length, value, i => do
    let start := i.size
    let size ← Failure.ofWord (Ty.size (.array element length))
    match (← m.value value).kind with
    | .constant (.aggregate elements) =>
      require (UInt64.ofNat elements.length = length)
        (.elementCount value elements.length length)
      let stride ← Failure.ofWord element.size
      let written ← elements.zipIdx.foldlM (fun i (entry : ValueId × Nat) => do
        let offset ← Failure.ofWord (elementStart start stride entry.2)
        appendConstant m abi element entry.1 (← padTo i offset)) i
      padFrom start size written
    | kind =>
      padFrom start size (← appendLeaf m abi i value (.array element length) size kind)
  | ty, value, i => do
    let start := i.size
    let size ← Failure.ofWord ty.size
    padFrom start size (← appendLeaf m abi i value ty size (← m.value value).kind)

/-- Appends the members of a struct that begins at `start`, each at its offset. -/
def appendMembers [Allocator] (m : IR.Module) (abi : Abi) (start : UInt64) :
    List Ty → List ValueId → List UInt64 → Image → Except Failure Image
  | field :: fields, element :: elements, offset :: offsets, i => do
    let padded ← padTo i (← Failure.ofWord (Word.addU64 start offset))
    let written ← appendConstant m abi field element padded
    appendMembers m abi start fields elements offsets written
  | _, _, _, i => .ok i

end

/-- The data image of a global; without an initializer it is all zero. -/
def imageOf [Allocator] (m : IR.Module) (abi : Abi) (g : IR.Global) :
    Except Failure Image := do
  let align ←
    match g.alignment with
    | some align => pure align
    | none => Failure.ofWord g.ty.align
  let start := Image.empty g.name align
  match g.initializer with
  | some init => appendConstant m abi g.ty init start
  | none =>
    let size ← Failure.ofWord g.ty.size
    pure (← start.appendZeros size).2

end InstSelect.Lowering
