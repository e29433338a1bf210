import InstSelect.Failure

/-!
# Reading a module

Look-up of the nodes of a module by id, and the small queries built on it.
-/

namespace InstSelect.IR

namespace Module

def value (m : Module) (id : ValueId) : Except Failure Value :=
  match m.values[id.index.toNat]? with
  | some v => .ok v
  | none => violate (.danglingValue id)

def inst (m : Module) (id : InstId) : Except Failure Inst :=
  match m.insts[id.index.toNat]? with
  | some i => .ok i
  | none => violate (.danglingInst id)

def block (m : Module) (id : BlockId) : Except Failure Block :=
  match m.blocks[id.index.toNat]? with
  | some b => .ok b
  | none => violate (.danglingBlock id)

def function (m : Module) (id : FuncId) : Except Failure Function :=
  match m.functions[id.index.toNat]? with
  | some f => .ok f
  | none => violate (.danglingFunction id)

def global (m : Module) (id : GlobalId) : Except Failure Global :=
  match m.globals[id.index.toNat]? with
  | some g => .ok g
  | none => violate (.danglingGlobal id)

def valueTy (m : Module) (id : ValueId) : Except Failure Ty := do
  let v ← m.value id
  pure v.ty

/-- The block that a block-valued operand refers to. -/
def blockOf (m : Module) (id : ValueId) : Except Failure BlockId := do
  let v ← m.value id
  match v.kind with
  | .block block => pure block
  | other => violate (.notABlock id other)

/-- The value of an integer constant; the null and all-zero constants count as 0. -/
def constantInt (m : Module) (id : ValueId) : Except Failure (Option Int64) := do
  let v ← m.value id
  match v.kind with
  | .constant (.int n) => pure (some n)
  | .constant .null | .constant .zero => pure (some 0)
  | _ => pure none

end Module

/-- A list taken two at a time; `none` if its length is odd. -/
def pairs? {α : Type} : List α → Option (List (α × α))
  | [] => some []
  | [_] => none
  | a :: b :: rest => (pairs? rest).map ((a, b) :: ·)

namespace Inst

/-- The `(value, predecessor)` pairs of a phi. -/
def phiIncoming (i : Inst) : Except Failure (List (ValueId × ValueId)) :=
  match i.opcode, pairs? i.operands with
  | .phi, some incoming => .ok incoming
  | _, _ => violate (.malformedPhi i.value)

end Inst

end InstSelect.IR
