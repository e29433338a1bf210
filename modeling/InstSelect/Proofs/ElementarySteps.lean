import Mathlib.Data.List.Forall2
import InstSelect.Proofs.Runs

/-!
# Elementary steps

When each operation on a machine function succeeds, and what it then leaves. The
operations of a session that add an operand, emit an instruction, bind a value or create a
block are these operations on the function being built, so their successful runs are read
off here too, each as an equivalence that serves in both directions.
-/

namespace InstSelect.Machine

variable {f f' : Function} {id : BlockId} {ids : List OperandId} {op : Op}
  {st : Storage}

namespace Function

/-- The id that the next operand gets. -/
def nextId (f : Function) : OperandId := ⟨UInt32.ofNat f.operands.size⟩

/-- The function with one more operand; registers and slots are counted. -/
def extend (f : Function) (form : Form) (storage : Storage) : Function :=
  { f with
    operands := f.operands.push ⟨form, storage⟩
    nextVReg := match form with
      | .virt _ => f.nextVReg + 1
      | _ => f.nextVReg
    nextSlot := match form with
      | .slot _ _ _ => f.nextSlot + 1
      | _ => f.nextSlot }

/-- The function with an instruction at the end of an existing block. -/
def appended (f : Function) (id : BlockId) (b : Block) (i : Inst) : Function :=
  { f with blocks := f.blocks.setIfInBounds id.index.toNat (b.append i) }

/-- The function with an instruction before the first terminator of an existing block. -/
def inserted (f : Function) (id : BlockId) (b : Block) (i : Inst) : Function :=
  { f with blocks := f.blocks.setIfInBounds id.index.toNat (b.insertBeforeTerminator i) }

/-- The function with an empty block of the given name. -/
def withBlock (f : Function) (name : String) : Function :=
  { f with blocks := f.blocks.push ⟨name, []⟩ }

/-! ## When the operations succeed -/

open Lowering (bind_eq_ok require_eq_ok ask_eq_ok ofWord_eq_ok operand_eq_ok)

theorem checkOpen_eq_ok {u : Unit} : f.checkOpen = .ok u ↔ f.isSealed = false := by
  rw [checkOpen, require_eq_ok]
  simp

theorem pushOperand_eq_ok {alloc : Allocator} {form : Form} {id : OperandId} :
    f.pushOperand form st = .ok (id, f') ↔
      f.isSealed = false ∧ alloc.refusal? (.operand f.operands.size) = none ∧
        id = f.nextId ∧
        f' = { f with operands := f.operands.push ⟨form, st⟩ } := by
  simp only [pushOperand, bind_eq_ok, checkOpen_eq_ok, ask_eq_ok, Lowering.pure_eq_ok,
    Prod.mk.injEq]
  constructor
  · rintro ⟨_, ho, _, hm, rfl, rfl⟩
    exact ⟨ho, hm, rfl, rfl⟩
  · rintro ⟨ho, hm, rfl, rfl⟩
    exact ⟨(), ho, (), hm, rfl, rfl⟩

theorem addU32_one_eq_ok {a b : UInt32} :
    Word.addU32 a 1 = .ok b ↔ a.toNat + 1 < 2 ^ 32 ∧ b = a + 1 := by
  unfold Word.addU32
  by_cases h : a.toNat + (1 : UInt32).toNat < UInt32.size
  · rw [if_pos h]
    simp only [Except.ok.injEq]
    exact ⟨fun hb => ⟨h, hb.symm⟩, fun hb => hb.2.symm⟩
  · rw [if_neg h]
    simp only [reduceCtorEq, false_iff]
    exact fun hb => h hb.1

theorem takeVReg_eq_ok {r : VReg} :
    f.takeVReg = .ok (r, f') ↔
      f.nextVReg.toNat + 1 < 2 ^ 32 ∧ r = ⟨f.nextVReg⟩ ∧
        f' = { f with nextVReg := f.nextVReg + 1 } := by
  simp only [takeVReg, bind_eq_ok, ofWord_eq_ok, addU32_one_eq_ok, Lowering.pure_eq_ok,
    Prod.mk.injEq]
  constructor
  · rintro ⟨_, ⟨hlt, rfl⟩, rfl, rfl⟩
    exact ⟨hlt, rfl, rfl⟩
  · rintro ⟨hlt, rfl, rfl⟩
    exact ⟨_, ⟨hlt, rfl⟩, rfl, rfl⟩

theorem takeSlot_eq_ok {r : SlotId} :
    f.takeSlot = .ok (r, f') ↔
      f.nextSlot.toNat + 1 < 2 ^ 32 ∧ r = ⟨f.nextSlot⟩ ∧
        f' = { f with nextSlot := f.nextSlot + 1 } := by
  simp only [takeSlot, bind_eq_ok, ofWord_eq_ok, addU32_one_eq_ok, Lowering.pure_eq_ok,
    Prod.mk.injEq]
  constructor
  · rintro ⟨_, ⟨hlt, rfl⟩, rfl, rfl⟩
    exact ⟨hlt, rfl, rfl⟩
  · rintro ⟨hlt, rfl, rfl⟩
    exact ⟨_, ⟨hlt, rfl⟩, rfl, rfl⟩

theorem newVReg_eq_ok {alloc : Allocator} {id : OperandId} :
    f.newVReg st = .ok (id, f') ↔
      f.isSealed = false ∧ alloc.refusal? (.operand f.operands.size) = none ∧
        f.nextVReg.toNat + 1 < 2 ^ 32 ∧ id = f.nextId ∧
          f' = f.extend (.virt ⟨f.nextVReg⟩) st := by
  simp only [newVReg, bind_eq_ok, Prod.exists, takeVReg_eq_ok, pushOperand_eq_ok]
  constructor
  · rintro ⟨_, _, ⟨hlt, rfl, rfl⟩, ho, hm, hid, hf⟩
    exact ⟨ho, hm, hlt, hid, hf⟩
  · rintro ⟨ho, hm, hlt, hid, hf⟩
    exact ⟨_, _, ⟨hlt, rfl, rfl⟩, ho, hm, hid, hf⟩

theorem stackSlot_eq_ok {alloc : Allocator} {size : UInt64} {align : UInt32}
    {id : OperandId} :
    f.stackSlot size align = .ok (id, f') ↔
      f.isSealed = false ∧ alloc.refusal? (.operand f.operands.size) = none ∧
        f.nextSlot.toNat + 1 < 2 ^ 32 ∧ id = f.nextId ∧
        f' = f.extend (.slot ⟨f.nextSlot⟩ size align) .ptr := by
  simp only [stackSlot, bind_eq_ok, Prod.exists, takeSlot_eq_ok, pushOperand_eq_ok]
  constructor
  · rintro ⟨_, _, ⟨hlt, rfl, rfl⟩, ho, hm, hid, hf⟩
    exact ⟨ho, hm, hlt, hid, hf⟩
  · rintro ⟨ho, hm, hlt, hid, hf⟩
    exact ⟨_, _, ⟨hlt, rfl, rfl⟩, ho, hm, hid, hf⟩

theorem block_eq_ok {b : Block} :
    f.block id = .ok b ↔ f.blocks[id.index.toNat]? = some b := by
  unfold Function.block
  cases f.blocks[id.index.toNat]? with
  | none => simp
  | some p => simp

theorem updateBlock_eq_ok {alloc : Allocator} {change : Block → Block} :
    f.updateBlock id change = .ok f' ↔
      ∃ b, f.blocks[id.index.toNat]? = some b ∧
        alloc.refusal? (.inst id b.insts.length) = none ∧
        f' = { f with blocks := f.blocks.setIfInBounds id.index.toNat (change b) } := by
  simp only [updateBlock, bind_eq_ok, block_eq_ok, ask_eq_ok, Lowering.pure_eq_ok]
  constructor
  · rintro ⟨b, hb, _, hm, rfl⟩
    exact ⟨b, hb, hm, rfl⟩
  · rintro ⟨b, hb, hm, rfl⟩
    exact ⟨b, hb, (), hm, rfl⟩

/-- The operands that a list of ids stands for. -/
def Operands (f : Function) (ids : List OperandId) (os : List Operand) : Prop :=
  List.Forall₂ (fun id o => f.operands[id.index.toNat]? = some o) ids os

theorem mapM_operand_eq_ok {os : List Operand} : ids.mapM f.operand = .ok os ↔
    f.Operands ids os := by
  induction ids generalizing os with
  | nil =>
    simp only [List.mapM_nil, Lowering.pure_eq_ok, Operands, List.forall₂_nil_left_iff]
    exact eq_comm
  | cons id ids ih =>
    simp only [List.mapM_cons, bind_eq_ok, operand_eq_ok, ih, Operands,
      List.forall₂_cons_left_iff, Lowering.pure_eq_ok]
    constructor
    · rintro ⟨o, ho, rest, hrest, rfl⟩
      exact ⟨o, rest, ho, hrest, rfl⟩
    · rintro ⟨o, rest, ho, hrest, rfl⟩
      exact ⟨o, ho, rest, hrest, rfl⟩

theorem checkInst_eq_ok {i : Inst} :
    f.checkInst op ids = .ok i ↔
      ∃ os, f.Operands ids os ∧ op.accepts os = true ∧ i = ⟨op, ids⟩ := by
  simp only [checkInst, bind_eq_ok, mapM_operand_eq_ok, require_eq_ok,
    Lowering.pure_eq_ok]
  constructor
  · rintro ⟨os, hos, _, ha, rfl⟩
    exact ⟨os, hos, ha, rfl⟩
  · rintro ⟨os, hos, ha, rfl⟩
    exact ⟨os, hos, (), ha, rfl⟩

theorem appendInst_eq_ok {alloc : Allocator} :
    f.appendInst id op ids = .ok f' ↔
      f.isSealed = false ∧ ∃ os b, f.Operands ids os ∧ op.accepts os = true ∧
        f.blocks[id.index.toNat]? = some b ∧
          alloc.refusal? (.inst id b.insts.length) = none ∧
        f' = f.appended id b ⟨op, ids⟩ := by
  simp only [appendInst, bind_eq_ok, checkOpen_eq_ok, checkInst_eq_ok, updateBlock_eq_ok]
  constructor
  · rintro ⟨_, ho, _, ⟨os, hos, ha, rfl⟩, b, hb, hm, rfl⟩
    exact ⟨ho, os, b, hos, ha, hb, hm, rfl⟩
  · rintro ⟨ho, os, b, hos, ha, hb, hm, rfl⟩
    exact ⟨(), ho, _, ⟨os, hos, ha, rfl⟩, b, hb, hm, rfl⟩

theorem insertBeforeTerminator_eq_ok {alloc : Allocator} :
    f.insertBeforeTerminator id op ids = .ok f' ↔
      f.isSealed = false ∧ ∃ os b, f.Operands ids os ∧ op.accepts os = true ∧
        f.blocks[id.index.toNat]? = some b ∧
          alloc.refusal? (.inst id b.insts.length) = none ∧
        f' = f.inserted id b ⟨op, ids⟩ := by
  simp only [insertBeforeTerminator, bind_eq_ok, checkOpen_eq_ok, checkInst_eq_ok,
    updateBlock_eq_ok]
  constructor
  · rintro ⟨_, ho, _, ⟨os, hos, ha, rfl⟩, b, hb, hm, rfl⟩
    exact ⟨ho, os, b, hos, ha, hb, hm, rfl⟩
  · rintro ⟨ho, os, b, hos, ha, hb, hm, rfl⟩
    exact ⟨(), ho, _, ⟨os, hos, ha, rfl⟩, b, hb, hm, rfl⟩

theorem createBlock_eq_ok {alloc : Allocator} {name : String} :
    f.createBlock name = .ok (id, f') ↔
      f.isSealed = false ∧ alloc.refusal? (.block f.blocks.size) = none ∧
        id = ⟨UInt32.ofNat f.blocks.size⟩ ∧ f' = f.withBlock name := by
  simp only [createBlock, bind_eq_ok, checkOpen_eq_ok, ask_eq_ok, Lowering.pure_eq_ok,
    Prod.mk.injEq]
  constructor
  · rintro ⟨_, ho, _, hm, rfl, rfl⟩
    exact ⟨ho, hm, rfl, rfl⟩
  · rintro ⟨ho, hm, rfl, rfl⟩
    exact ⟨(), ho, (), hm, rfl, rfl⟩

theorem appendBlock_eq_ok {alloc : Allocator} :
    f.appendBlock id = .ok f' ↔
      f.isSealed = false ∧ (∃ b, f.blocks[id.index.toNat]? = some b) ∧ id ∉ f.layout ∧
        alloc.refusal? (.layout f.layout.length) = none ∧
        { f with layout := f.layout ++ [id] } = f' := by
  simp only [appendBlock, bind_eq_ok, checkOpen_eq_ok, block_eq_ok, ask_eq_ok,
    Lowering.require_eq_ok, Lowering.pure_eq_ok]
  constructor
  · rintro ⟨_, hopen, b, hb, _, hfresh, _, hm, rfl⟩
    exact ⟨hopen, ⟨b, hb⟩, by simpa using hfresh, hm, rfl⟩
  · rintro ⟨hopen, ⟨b, hb⟩, hfresh, hm, rfl⟩
    exact ⟨(), hopen, b, hb, (), by simpa using hfresh, (), hm, rfl⟩

theorem blockRef_eq_ok {alloc : Allocator} {b : BlockId} {id : OperandId} :
    f.blockRef b = .ok (id, f') ↔
      b.index.toNat < f.blocks.size ∧ f.isSealed = false ∧
        alloc.refusal? (.operand f.operands.size) = none ∧ id = f.nextId ∧
        f' = f.extend (.label b) .void := by
  simp only [blockRef, bind_eq_ok, block_eq_ok, pushOperand_eq_ok]
  constructor
  · rintro ⟨blk, hb, h⟩
    exact ⟨(Array.getElem?_eq_some_iff.mp hb).1, h⟩
  · rintro ⟨hlt, h⟩
    exact ⟨_, Array.getElem?_eq_getElem hlt, h⟩

end Function

end InstSelect.Machine

namespace InstSelect.Lowering

open IR (ValueId)
open Machine (Storage OperandId Op PhysReg Address Form)

variable {st : Storage} {id : OperandId} {u : Unit} {v : ValueId}

/-- Of lists that correspond item by item, each item on the right has one on the left. -/
theorem exists_left_of_forall₂ {α β : Type} {R : α → β → Prop} {xs : List α} {ys : List β}
    (h : List.Forall₂ R xs ys) : ∀ y ∈ ys, ∃ x ∈ xs, R x y := by
  induction h with
  | nil => simp
  | @cons x y xs ys hxy _ ih =>
    refine List.forall_mem_cons.mpr ⟨⟨x, List.mem_cons_self, hxy⟩, fun z hz => ?_⟩
    obtain ⟨w, hw, hwz⟩ := ih z hz
    exact ⟨w, List.mem_cons_of_mem _ hw, hwz⟩

variable {env : Env} {s s' : State}

/-! ## Elementary steps of a session -/

/-- There is memory for one more operand of a function. -/
def Env.GrantsOperand (env : Env) (f : Machine.Function) : Prop :=
  env.allocator.refusal? (.operand f.operands.size) = none

/-- One more operand in the arena. -/
theorem runs_push {form : Form} :
    Runs (build (·.pushOperand form st)) env s id s' ↔
      ∃ c, s.current = some c ∧ c.machine.isSealed = false ∧ env.GrantsOperand c.machine ∧
        id = c.machine.nextId ∧
        s' = s.withMachine c
          { c.machine with operands := c.machine.operands.push ⟨form, st⟩ } := by
  simp only [runs_build, Machine.Function.pushOperand_eq_ok]
  constructor
  · rintro ⟨c, f, hc, ⟨ho, hm, hid, rfl⟩, hs⟩
    exact ⟨c, hc, ho, hm, hid, hs⟩
  · rintro ⟨c, hc, ho, hm, hid, hs⟩
    exact ⟨c, _, hc, ⟨ho, hm, hid, rfl⟩, hs⟩

theorem runs_newVReg :
    Runs (newVReg st) env s id s' ↔
      ∃ c, s.current = some c ∧ c.machine.isSealed = false ∧ env.GrantsOperand c.machine ∧
        c.machine.nextVReg.toNat + 1 < 2 ^ 32 ∧ id = c.machine.nextId ∧
        s' = s.withMachine c (c.machine.extend (.virt ⟨c.machine.nextVReg⟩) st) := by
  simp only [newVReg, runs_bind, runs_build, Machine.Function.takeVReg_eq_ok,
    Machine.Function.pushOperand_eq_ok]
  constructor
  · rintro ⟨_, _, ⟨c, f, hc, ⟨hlt, rfl, rfl⟩, rfl⟩, _, _, hc', ⟨ho, hm, hid, rfl⟩, hs⟩
    cases hc'
    exact ⟨c, hc, ho, hm, hlt, hid, hs⟩
  · rintro ⟨c, hc, ho, hm, hlt, hid, hs⟩
    exact ⟨_, _, ⟨c, _, hc, ⟨hlt, rfl, rfl⟩, rfl⟩, _, _, rfl, ⟨ho, hm, hid, rfl⟩, hs⟩

theorem runs_newSlot {size : UInt64} {align : UInt32} :
    Runs (newSlot size align) env s id s' ↔
      ∃ c, s.current = some c ∧ c.machine.isSealed = false ∧ env.GrantsOperand c.machine ∧
        c.machine.nextSlot.toNat + 1 < 2 ^ 32 ∧ id = c.machine.nextId ∧
        s' = s.withMachine c
          (c.machine.extend (.slot ⟨c.machine.nextSlot⟩ size align) .ptr) := by
  simp only [newSlot, runs_bind, runs_build, Machine.Function.takeSlot_eq_ok,
    Machine.Function.pushOperand_eq_ok]
  constructor
  · rintro ⟨_, _, ⟨c, f, hc, ⟨hlt, rfl, rfl⟩, rfl⟩, _, _, hc', ⟨ho, hm, hid, rfl⟩, hs⟩
    cases hc'
    exact ⟨c, hc, ho, hm, hlt, hid, hs⟩
  · rintro ⟨c, hc, ho, hm, hlt, hid, hs⟩
    exact ⟨_, _, ⟨c, _, hc, ⟨hlt, rfl, rfl⟩, rfl⟩, _, _, rfl, ⟨ho, hm, hid, rfl⟩, hs⟩

theorem runs_physReg {reg : PhysReg} :
    Runs (physReg reg st) env s id s' ↔
      ∃ c, s.current = some c ∧ c.machine.isSealed = false ∧ env.GrantsOperand c.machine ∧
        id = c.machine.nextId ∧ s' = s.withMachine c (c.machine.extend (.phys reg) st) :=
  runs_push

theorem runs_imm {value : Int64} :
    Runs (imm value st) env s id s' ↔
      ∃ c, s.current = some c ∧ c.machine.isSealed = false ∧ env.GrantsOperand c.machine ∧
        id = c.machine.nextId ∧ s' = s.withMachine c (c.machine.extend (.imm value) st) :=
  runs_push

theorem runs_symbol {name : String} :
    Runs (symbol name) env s id s' ↔
      ∃ c, s.current = some c ∧ c.machine.isSealed = false ∧ env.GrantsOperand c.machine ∧
        id = c.machine.nextId ∧
          s' = s.withMachine c (c.machine.extend (.symbol name) .ptr) :=
  runs_push

theorem runs_mem {address : Address} :
    Runs (mem address st) env s id s' ↔
      ∃ c, s.current = some c ∧ c.machine.isSealed = false ∧ env.GrantsOperand c.machine ∧
        id = c.machine.nextId ∧
          s' = s.withMachine c (c.machine.extend (.mem address) st) :=
  runs_push

theorem runs_blockRef {b : Machine.BlockId} :
    Runs (build (·.blockRef b)) env s id s' ↔
      ∃ c, s.current = some c ∧ b.index.toNat < c.machine.blocks.size ∧
        c.machine.isSealed = false ∧ env.GrantsOperand c.machine ∧ id = c.machine.nextId ∧
        s' = s.withMachine c (c.machine.extend (.label b) .void) := by
  simp only [runs_build, Machine.Function.blockRef_eq_ok]
  constructor
  · rintro ⟨c, f, hc, ⟨hlt, ho, hm, hid, rfl⟩, hs⟩
    exact ⟨c, hc, hlt, ho, hm, hid, hs⟩
  · rintro ⟨c, hc, hlt, ho, hm, hid, hs⟩
    exact ⟨c, _, hc, ⟨hlt, ho, hm, hid, rfl⟩, hs⟩

/-- An emitted instruction has existing operands of accepted shapes. -/
theorem runs_emit {op : Op} {ids : List OperandId} :
    Runs (emit op ids) env s u s' ↔
      ∃ c id b os, s.current = some c ∧ c.block = some id ∧ c.machine.isSealed = false ∧
        c.machine.Operands ids os ∧ op.accepts os = true ∧
        c.machine.blocks[id.index.toNat]? = some b ∧
        env.allocator.refusal? (.inst id b.insts.length) = none ∧
        s' = s.withMachine c (c.machine.appended id b ⟨op, ids⟩) := by
  simp only [emit, runs_bind, runs_insertionBlock, runs_change,
    Machine.Function.appendInst_eq_ok]
  constructor
  · rintro ⟨id, t, ⟨c, hc, hb, rfl⟩, c', f, hc', ⟨ho, os, b, hos, ha, hblk, hm, rfl⟩, hs⟩
    rw [hc] at hc'
    cases hc'
    exact ⟨c, id, b, os, hc, hb, ho, hos, ha, hblk, hm, hs⟩
  · rintro ⟨c, id, b, os, hc, hb, ho, hos, ha, hblk, hm, hs⟩
    exact ⟨id, s, ⟨c, hc, hb, rfl⟩, c, _, hc, ⟨ho, os, b, hos, ha, hblk, hm, rfl⟩, hs⟩

@[simp]
theorem runs_lookupValue {r : Option OperandId} :
    Runs (lookupValue v) env s r s' ↔ s.values.find? v = r ∧ s = s' := by
  simp only [lookupValue, runs_bind, runs_get, runs_pure]
  constructor
  · rintro ⟨t, u, ⟨rfl, rfl⟩, rfl, rfl⟩
    exact ⟨rfl, rfl⟩
  · rintro ⟨rfl, rfl⟩
    exact ⟨s, s, ⟨rfl, rfl⟩, rfl, rfl⟩

theorem runs_bindValue :
    Runs (bindValue v id) env s u s' ↔
      s.values.find? v = none ∧ s' = { s with values := s.values.insert v id } := by
  simp only [bindValue, runs_bind, runs_lookupValue]
  cases h : s.values.find? v with
  | none =>
    constructor
    · rintro ⟨r, t, ⟨rfl, rfl⟩, hr⟩
      exact ⟨rfl, runs_modify.mp hr⟩
    · rintro ⟨-, hs⟩
      exact ⟨none, s, ⟨rfl, rfl⟩, runs_modify.mpr hs⟩
  | some o =>
    constructor
    · rintro ⟨r, t, ⟨rfl, rfl⟩, hr⟩
      exact absurd hr not_runs_violateIn
    · rintro ⟨hn, -⟩
      cases hn

/--
The machine block of a source block is the one known for it, or a new and empty one.
-/
theorem runs_blockFor {b : IR.BlockId} {id : Machine.BlockId} :
    Runs (blockFor b) env s id s' ↔
      (s.blocks.find? b = some id ∧ s = s') ∨
      ∃ c data, s.blocks.find? b = none ∧ env.module.block b = .ok data ∧
        s.current = some c ∧ c.source = data.func ∧ c.machine.isSealed = false ∧
        env.allocator.refusal? (.block c.machine.blocks.size) = none ∧
        id = ⟨UInt32.ofNat c.machine.blocks.size⟩ ∧
        s' = { s.withMachine c (c.machine.withBlock (data.name.getD (toString b))) with
          blocks := s.blocks.insert b id } := by
  simp only [blockFor, runs_bind, runs_get]
  cases hb : s.blocks.find? b with
  | some id' =>
    constructor
    · rintro ⟨t, u, ⟨rfl, rfl⟩, h⟩
      rw [hb, runs_pure] at h
      exact Or.inl ⟨by rw [h.1], h.2⟩
    · rintro (⟨hid, rfl⟩ | ⟨c, data, hn, -⟩)
      · refine ⟨s, s, ⟨rfl, rfl⟩, ?_⟩
        rw [hb, runs_pure]
        exact ⟨Option.some.inj hid, rfl⟩
      · cases hn
  | none =>
    constructor
    · rintro ⟨t, u, ⟨rfl, rfl⟩, h⟩
      simp only [hb, runs_bind, runs_sourceModule, runs_check, runs_get] at h
      obtain ⟨_, _, ⟨rfl, rfl⟩, data, _, ⟨hdata, rfl⟩, _, _, ⟨rfl, rfl⟩, h⟩ := h
      split at h
      · next c hc =>
        split at h
        · next hsrc =>
          simp only [runs_bind, runs_build, runs_modify, runs_pure,
            Machine.Function.createBlock_eq_ok] at h
          obtain ⟨id', _, ⟨c', f, hc', ⟨ho, hm, rfl, rfl⟩, rfl⟩, _, _, rfl, rfl, rfl⟩ := h
          rw [hc] at hc'
          cases hc'
          exact Or.inr ⟨c, data, rfl, hdata, hc, hsrc, ho, hm, rfl, rfl⟩
        · exact absurd h not_runs_violateIn
      · exact absurd h not_runs_violateIn
    · rintro (⟨hid, -⟩ | ⟨c, data, -, hdata, hc, hsrc, ho, hm, rfl, rfl⟩)
      · cases hid
      · refine ⟨s, s, ⟨rfl, rfl⟩, ?_⟩
        simp only [hb, runs_bind, runs_sourceModule, runs_check, runs_get]
        refine ⟨_, s, ⟨rfl, rfl⟩, data, s, ⟨hdata, rfl⟩, s, s, ⟨rfl, rfl⟩, ?_⟩
        rw [hc]
        simp only [if_pos hsrc, runs_bind, runs_build, runs_modify, runs_pure,
          Machine.Function.createBlock_eq_ok]
        exact ⟨_, _, ⟨c, _, hc, ⟨ho, hm, rfl, rfl⟩, rfl⟩, (), _, rfl, rfl, rfl⟩

end InstSelect.Lowering
