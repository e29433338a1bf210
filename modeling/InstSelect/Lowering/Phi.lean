import InstSelect.Lowering.Operands

/-!
# Phis

A phi gets its register when it is met, and one copy per incoming edge once every block of
the function exists. The copies of one predecessor stand together before its first
terminator, in the order of the phis. If one of them would overwrite a register that a
later one still reads, all sources go through fresh temporaries first.
-/

namespace InstSelect.Lowering

open IR (ValueId InstId Inst)
open Machine (OperandId)

/-- Gives a phi its register and remembers it for later. -/
def lowerPhi (id : InstId) (i : Inst) : LowerM Unit := do
  let storage ← check (scalarStorage i.ty "phi")
  let dst ← newVReg storage
  bindValue i.value dst
  modify fun s => { s with pendingPhis := s.pendingPhis ++ [id] }

/-- A copy to be made: destination and source. -/
structure Copy where
  dst : OperandId
  src : OperandId
deriving DecidableEq, Repr

/-- The copies of one predecessor, in phi order. -/
structure EdgeCopies where
  block : Machine.BlockId
  copies : List Copy
deriving DecidableEq, Repr

/-- Adds a copy to those of its predecessor; new predecessors come last. -/
def addCopy (block : Machine.BlockId) (copy : Copy) : List EdgeCopies → List EdgeCopies
  | [] => [⟨block, [copy]⟩]
  | edge :: rest =>
    if edge.block = block then { edge with copies := edge.copies ++ [copy] } :: rest
    else edge :: addCopy block copy rest

def predecessorBlock (phi : ValueId) (pred : ValueId) : LowerM Machine.BlockId := do
  let pred ← check ((← sourceModule).blockOf pred)
  match (← get).blocks.find? pred with
  | some block => pure block
  | none => check (violate (.phiFromUnlowered phi pred))

def collectPair (phi : ValueId) (dst : OperandId) (edges : List EdgeCopies)
    (incoming : ValueId × ValueId) : LowerM (List EdgeCopies) := do
  let block ← predecessorBlock phi incoming.2
  let src ← resolve incoming.1
  pure (addCopy block ⟨dst, src⟩ edges)

def collectPhi (edges : List EdgeCopies) (id : InstId) : LowerM (List EdgeCopies) := do
  let i ← check ((← sourceModule).inst id)
  match ← lookupValue i.value with
  | none => check (violate (.phiWithoutRegister i.value))
  | some dst =>
    let incoming ← check i.phiIncoming
    incoming.foldlM (collectPair i.value dst) edges

/-- Places one copy before the first terminator of a block. -/
def insertCopy (block : Machine.BlockId) (copy : Copy) : LowerM Unit := do
  let op ← copyOp copy.src
  change (·.insertBeforeTerminator block op [copy.dst, copy.src])

/-- Whether some copy reads a register that another copy of the list writes. -/
def overlapping (copies : List Copy) : Bool :=
  copies.any fun c => c.src ≠ c.dst && copies.any fun other => other.dst = c.src

/-- Copies a source into a temporary; the answer is the copy that remains to be made. -/
def stageCopy (block : Machine.BlockId) (copy : Copy) : LowerM Copy := do
  let temporary ← newVReg (← storage copy.dst)
  insertCopy block ⟨temporary, copy.src⟩
  pure ⟨copy.dst, temporary⟩

/-- Places the copies of one predecessor. -/
def placeCopies (edge : EdgeCopies) : LowerM Unit := do
  if overlapping edge.copies then
    let staged ← edge.copies.mapM (stageCopy edge.block)
    staged.forM (insertCopy edge.block)
  else edge.copies.forM (insertCopy edge.block)

/-- Turns every remembered phi into copies. -/
def resolvePendingPhis : LowerM Unit := do
  let pending := (← get).pendingPhis
  modify fun s => { s with pendingPhis := [] }
  let edges ← pending.foldlM collectPhi []
  edges.forM placeCopies

end InstSelect.Lowering
