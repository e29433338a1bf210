import InstSelect.IR.Layout
import InstSelect.Failure

/-!
# Storage classes of IR types

Which storage class holds a value of a type. Structs that fit a register exactly travel as
the integer of their size; any other struct is handled through a pointer. Selection covers
integers only, so floating-point values have a class but are refused in every role.
-/

namespace InstSelect.Lowering

open IR (Ty)
open Machine (Storage)

/-- The integer class of a width. -/
def widthStorage : IR.Width → Storage
  | .w8 => .i8
  | .w16 => .i16
  | .w32 => .i32
  | .w64 => .i64

/-- Storage class of a type. -/
def storageOf (ty : Ty) : Except Failure Storage :=
  match ty with
  | .void => .ok .void
  | .bool => .ok .i8
  | .int width | .uint width => .ok (widthStorage width)
  | .f32 => .ok .f32
  | .f64 => .ok .f64
  | .ptr _ => .ok .ptr
  | .struct _ _ _ => do
    let size ← Failure.ofWord ty.size
    pure ((Storage.integerOfSize? size).getD .ptr)
  | .array _ _ => .error (.unsupported (.storage .array))
  | .function _ _ _ => .error (.unsupported (.storage .function))
  | .type => .error (.unsupported (.storage .type))

/-- Storage class of a value used in the named role, where floating point is refused. -/
def scalarStorage (ty : Ty) (role : String) : Except Failure Storage := do
  let storage ← storageOf ty
  if storage.isFloat then .error (.unsupported (.floating role)) else pure storage

/-- Like `scalarStorage`, for a value that is copied whole through a register. -/
def byValueStorage (ty : Ty) (role : String) : Except Failure Storage := do
  let storage ← scalarStorage ty role
  match ty with
  | .struct name _ _ =>
    let size ← Failure.ofWord ty.size
    match Storage.integerOfSize? size with
    | some _ => pure storage
    | none => .error (.unsupported (.structByValue name size role))
  | _ => pure storage

end InstSelect.Lowering
