import InstSelect.Lowering.Function
import InstSelect.Lowering.Initializer

/-!
# Modules

Lowering a whole module: every global, then every function, each in declaration order. Any
failure ends the lowering of the module, and no partial program is returned.
-/

namespace InstSelect.Lowering

/-- Adds the data image of a global to the program. -/
def lowerGlobal (global : IR.GlobalId) : LowerM Unit := do
  let env ← read
  let g ← check (env.module.global global)
  let image ← check (@imageOf env.allocator env.module env.abi g)
  let output ← check (@Machine.Program.finishGlobal env.allocator (← get).output image)
  modify fun s => { s with output }

/-- Lowers all globals and all functions of the module. -/
def lowerAll : LowerM Unit := do
  let m ← sourceModule
  m.globalIds.forM lowerGlobal
  m.functionIds.forM fun id => do
    let _ ← lowerFunction id

/-- The program of a module. -/
def lowerModule [Machine.Allocator] (m : IR.Module) (abi : Abi) :
    Except Failure Machine.Program :=
  match lowerAll.run ⟨m, abi⟩ |>.run (State.initial m.name) with
  | .ok _ s => .ok s.output
  | .error failure _ => .error failure

end InstSelect.Lowering
