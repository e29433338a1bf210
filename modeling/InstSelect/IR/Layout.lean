import InstSelect.Word
import InstSelect.IR.Ty

/-!
# Memory layout of types

C-style layout over 64-bit words: members stand in order, each at the least multiple of
its alignment that is not below the end of the previous one, unless the struct is packed;
the size of a struct is rounded up to its alignment. Products and sums of sizes saturate;
rounding up is checked, so a layout exists unless a rounding step leaves the word.
-/

namespace InstSelect.IR

/-- Size and alignment of a type, in bytes. -/
structure Extent where
  size : UInt64
  align : UInt32
deriving DecidableEq, Repr

/--
Layout of a struct: its extent and the offset of every member, in declaration order.
-/
structure StructLayout where
  size : UInt64
  align : UInt32
  offsets : List UInt64
deriving DecidableEq, Repr

/--
The least multiple of `alignment` not below `value`; an alignment of 0 or 1 asks for
nothing.
-/
def alignTo (value alignment : UInt64) : Except Overflow UInt64 :=
  if alignment ≤ 1 then .ok value
  else
    let rest := value % alignment
    if rest = 0 then .ok value else Word.addU64 value (alignment - rest)

/--
Members placed so far: the end of the last one, the largest alignment, and their offsets.
-/
structure Placement where
  stop : UInt64
  align : UInt32
  offsets : List UInt64
deriving DecidableEq, Repr

namespace Placement

/-- Nothing placed yet. -/
def empty : Placement := ⟨0, 1, []⟩

/-- Places one more member behind the others. -/
def place (packed : Bool) (p : Placement) (field : Extent) :
    Except Overflow Placement := do
  let align := if packed then 1 else field.align
  let offset ← alignTo p.stop align.toUInt64
  pure ⟨Word.satAdd offset field.size, max p.align align, p.offsets ++ [offset]⟩

/-- Closes a struct: its size is rounded up to its alignment. -/
def finish (p : Placement) : Except Overflow StructLayout := do
  let size ← alignTo p.stop p.align.toUInt64
  pure ⟨size, p.align, p.offsets⟩

end Placement

namespace StructLayout

/-- Layout of a struct from the extents of its members. -/
def ofExtents (packed : Bool) (fields : List Extent) : Except Overflow StructLayout := do
  let placed ← fields.foldlM (Placement.place packed) Placement.empty
  placed.finish

end StructLayout

namespace Ty

mutual

/-- Size and alignment of a type. -/
def extent : Ty → Except Overflow Extent
  | void | type => .ok ⟨0, 1⟩
  | bool => .ok ⟨1, 1⟩
  | int width | uint width => .ok ⟨(width.bits / 8).toUInt64, width.bits / 8⟩
  | f32 => .ok ⟨4, 4⟩
  | f64 | ptr _ | function _ _ _ => .ok ⟨8, 8⟩
  | array element length => do
    let inner ← element.extent
    pure ⟨Word.satMul inner.size length, inner.align⟩
  | struct _ fields packed => do
    let layout ← StructLayout.ofExtents packed (← extents fields)
    pure ⟨layout.size, layout.align⟩

def extents : List Ty → Except Overflow (List Extent)
  | [] => .ok []
  | ty :: rest => do
    let first ← ty.extent
    let others ← extents rest
    pure (first :: others)

end

/-- Size in bytes. -/
def size (ty : Ty) : Except Overflow UInt64 := do
  let e ← ty.extent
  pure e.size

/-- Alignment in bytes. -/
def align (ty : Ty) : Except Overflow UInt32 := do
  let e ← ty.extent
  pure e.align

/-- Layout of the struct with the given members. -/
def structLayout (packed : Bool) (fields : List Ty) : Except Overflow StructLayout := do
  StructLayout.ofExtents packed (← extents fields)

end Ty

end InstSelect.IR
