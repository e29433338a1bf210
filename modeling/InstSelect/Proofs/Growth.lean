import InstSelect.Proofs.ElementarySteps
import InstSelect.Proofs.Execution

/-!
# How a function grows under selection

Between two points of a lowering the function being built only grows, by a handful of
elementary changes: an operand enters the arena, an instruction with accepted operands is
appended to the insertion block, a block is created for a source block, a value that needs
no code is bound, or a call reserves stack. `Grow` lists them, and `Path` is what a
sequence of them can do, together with the code that it appended. Every selection routine
is shown once to run along a `Path`; what growth keeps is proved once about `Path`, by
induction over it.

Operand ids are 32-bit, so an arena tells its operands apart only up to `2 ^ 32` of them.
An `Arena` is the finished arena of a function with that bound, and a state is `Within` it
when its operands are the first ones of it. Since operands never change, what an id stands
for is a fact about the finished arena, and holds at every state within.
-/

namespace InstSelect.Machine

variable {f g : Function} {id : OperandId} {o : Operand} {insts : List Inst}
  {code : List Code}

namespace Address

def registers (a : Address) : List Reg := a.base :: a.index.toList

end Address

/-- The finished arena of a function, small enough for ids to tell its operands apart. -/
structure Arena where
  operands : List Operand
  small : operands.length ≤ 2 ^ 32

namespace Arena

def get? (a : Arena) (id : OperandId) : Option Operand := a.operands[id.index.toNat]?

end Arena

variable {a : Arena}

namespace Function

/--
What selection may add to the arena: a register or slot under the next number, an address
over registers that exist, the label of a block that exists.
-/
def Admits (f : Function) : Form → Prop
  | .virt r => r.index = f.nextVReg ∧ f.nextVReg.toNat + 1 < 2 ^ 32
  | .slot id _ _ => id.index = f.nextSlot ∧ f.nextSlot.toNat + 1 < 2 ^ 32
  | .mem a => ∀ r, .virt r ∈ a.registers → ∃ o ∈ f.operands, o.form = .virt r
  | .label b => b.index.toNat < f.blocks.size
  | .phys _ | .symbol _ | .imm _ => True

/-- `id` was given out for the operand `o`. -/
def Names (f : Function) (id : OperandId) (o : Operand) : Prop :=
  ∃ k, f.operands[k]? = some o ∧ id = ⟨UInt32.ofNat k⟩

/-- The operands of a function are the first ones of an arena. -/
def Within (f : Function) (a : Arena) : Prop := f.operands.toList <+: a.operands

theorem Within.get? (h : f.Within a) (ho : f.operands[id.index.toNat]? = some o) :
    a.get? id = some o := by
  obtain ⟨rest, hrest⟩ := h
  rw [← Array.getElem?_toList] at ho
  have hlt : id.index.toNat < f.operands.toList.length := by
    rw [List.getElem?_eq_some_iff] at ho
    exact ho.1
  rw [Arena.get?, ← hrest, List.getElem?_append_left hlt, ho]

/--
Ids are given out in order, so within a small arena the given id is the operand's place.
-/
theorem Names.get? (hn : f.Names id o) (h : f.Within a) : a.get? id = some o := by
  obtain ⟨k, hk, rfl⟩ := hn
  obtain ⟨rest, hrest⟩ := h
  rw [← Array.getElem?_toList] at hk
  have hlt : k < f.operands.toList.length := by
    rw [List.getElem?_eq_some_iff] at hk
    exact hk.1
  have hbound : k < 2 ^ 32 := by
    have := a.small
    rw [← hrest, List.length_append] at this
    omega
  rw [Arena.get?, UInt32.toNat_ofNat_of_lt' hbound, ← hrest,
    List.getElem?_append_left hlt, hk]

/-- Looks up the operands of instructions. -/
def decode (f : Function) (insts : List Inst) : Option (List Code) :=
  insts.mapM fun i =>
    (i.operands.mapM fun id => f.operands[id.index.toNat]?).map (Code.mk i.op)

/-- `code` is what instructions stand for. -/
def Decodes (f : Function) (insts : List Inst) (code : List Code) : Prop :=
  List.Forall₂ (fun i c => i.op = c.op ∧ f.Operands i.operands c.operands) insts code

theorem mapM_eq_some {α β : Type} {f : α → Option β} {xs : List α} {ys : List β} :
    xs.mapM f = some ys ↔ List.Forall₂ (fun x y => f x = some y) xs ys := by
  induction xs generalizing ys with
  | nil => cases ys <;> simp
  | cons x xs ih =>
    rw [List.mapM_cons, List.forall₂_cons_left_iff]
    simp only [Option.bind_eq_bind, Option.bind_eq_some_iff, ih, Option.pure_def,
      Option.some.injEq]
    constructor
    · rintro ⟨y, hy, zs, hzs, rfl⟩
      exact ⟨y, zs, hy, hzs, rfl⟩
    · rintro ⟨y, zs, hy, hzs, rfl⟩
      exact ⟨y, hy, zs, hzs, rfl⟩

theorem decode_eq_some : f.decode insts = some code ↔ f.Decodes insts code := by
  rw [decode, mapM_eq_some, Decodes]
  have hrel : ∀ (i : Inst) (c : Code),
      (i.operands.mapM fun id => f.operands[id.index.toNat]?).map (Code.mk i.op) =
      some c ↔
        i.op = c.op ∧ f.Operands i.operands c.operands := by
    intro i c
    rw [Option.map_eq_some_iff, Operands]
    constructor
    · rintro ⟨os, hos, rfl⟩
      exact ⟨rfl, mapM_eq_some.mp hos⟩
    · rintro ⟨hop, hos⟩
      exact ⟨c.operands, mapM_eq_some.mpr hos, by rw [hop]⟩
  simp only [hrel]

theorem getElem?_of_prefix (h : f.operands.toList <+: g.operands.toList) {k : Nat}
    (ho : f.operands[k]? = some o) : g.operands[k]? = some o := by
  rw [← Array.getElem?_toList] at ho ⊢
  obtain ⟨rest, hrest⟩ := h
  have hlt := (List.getElem?_eq_some_iff.mp ho).1
  rw [← hrest, List.getElem?_append_left hlt, ho]

/-- What instructions stand for stays when operands are added. -/
theorem Decodes.mono (h : f.operands.toList <+: g.operands.toList)
    (hd : f.Decodes insts code) : g.Decodes insts code :=
  hd.imp fun _ _ hi => ⟨hi.1, hi.2.imp fun _ _ ho => getElem?_of_prefix h ho⟩

theorem names_extend (f : Function) (form : Form) (st : Storage) :
    (f.extend form st).Names f.nextId ⟨form, st⟩ :=
  ⟨f.operands.size, by simp [extend], rfl⟩

/-- What ids name stays when operands are added. -/
theorem Names.mono (hn : f.Names id o) (h : f.operands.toList <+: g.operands.toList) :
    g.Names id o := by
  obtain ⟨k, hk, rfl⟩ := hn
  exact ⟨k, getElem?_of_prefix h hk, rfl⟩

end Function

end InstSelect.Machine

namespace InstSelect.Lowering

open IR (ValueId Constant)
open Machine (Storage Operand OperandId Op Form Code Arena)

variable {env : Env} {s s' t : State} {code : List Code} {c : Current}

/-! ## Elementary changes -/

/-- The immediate that a constant without parts stands for. -/
def constantWord? : Constant → Option Int64
  | .int n => some n
  | .null | .zero | .undef => some 0
  | .float _ | .bytes _ | .aggregate _ => none

/-- How the operand of a value that needs no code is found. -/
inductive Leaf (env : Env) (s : State) (c : Current) (v : ValueId) (id : OperandId) : Prop
  | argument (ty : IR.Ty) (index : UInt32)
      (value : env.module.value v = .ok ⟨ty, .argument c.source index⟩)
      (arg : c.machine.arg? index.toNat = some id)
  | constant (ty : IR.Ty) (k : Constant) (n : Int64) (st : Storage)
      (value : env.module.value v = .ok ⟨ty, .constant k⟩)
      (word : constantWord? k = some n) (storage : storageOf ty = .ok st)
      (names : c.machine.Names id ⟨.imm n, st⟩)
  | function (ty : IR.Ty) (g : IR.FuncId) (f : IR.Function) (name : String)
      (value : env.module.value v = .ok ⟨ty, .function g⟩)
      (function : env.module.function g = .ok f)
      (symbol : env.abi.symbolName f.name = .ok name)
      (names : c.machine.Names id ⟨.symbol name, .ptr⟩)
  | global (ty : IR.Ty) (g : IR.GlobalId) (data : IR.Global)
      (value : env.module.value v = .ok ⟨ty, .global g⟩)
      (global : env.module.global g = .ok data)
      (names : c.machine.Names id ⟨.symbol data.name, .ptr⟩)
  | block (ty : IR.Ty) (b : IR.BlockId) (mb : Machine.BlockId)
      (value : env.module.value v = .ok ⟨ty, .block b⟩)
      (block : s.blocks.find? b = some mb) (names : c.machine.Names id ⟨.label mb, .void⟩)

/-- One elementary change, and the code it appends. -/
inductive Grow (env : Env) (s : State) : State → List Code → Prop
  | operand {c : Current} {form : Form} {st : Storage} (current : s.current = some c)
      (isOpen : c.machine.isSealed = false) (admits : c.machine.Admits form) :
      Grow env s (s.withMachine c (c.machine.extend form st)) []
  | inst {c : Current} {id : Machine.BlockId} {b : Machine.Block} {op : Op}
      {ids : List OperandId} {os : List Operand} (current : s.current = some c)
      (block : c.block = some id) (operands : c.machine.Operands ids os)
      (accepts : op.accepts os = true)
      (exists_block : c.machine.blocks[id.index.toNat]? = some b) :
      Grow env s (s.withMachine c (c.machine.appended id b ⟨op, ids⟩)) [⟨op, os⟩]
  | block {c : Current} {b : IR.BlockId} {data : IR.Block} (current : s.current = some c)
      (unknown : s.blocks.find? b = none) (data_eq : env.module.block b = .ok data)
      (source : c.source = data.func) :
      Grow env s
        { s.withMachine c (c.machine.withBlock (data.name.getD (toString b))) with
          blocks := s.blocks.insert b ⟨UInt32.ofNat c.machine.blocks.size⟩ } []
  | value {c : Current} {v : ValueId} {id : OperandId} (current : s.current = some c)
      (unbound : s.values.find? v = none) (leaf : Leaf env s c v id) :
      Grow env s { s with values := s.values.insert v id } []
  | reserve {c : Current} {bytes : UInt32} (current : s.current = some c) :
      Grow env s (s.withMachine c (c.machine.reserveCallStack bytes)) []

/-- What a sequence of elementary changes does, and the code it appends. -/
inductive Path (env : Env) : State → State → List Code → Prop
  | refl (s : State) : Path env s s []
  | step {s s' : State} {code : List Code} : Grow env s s' code → Path env s s' code
  | trans {s t u : State} {xs ys : List Code} :
      Path env s t xs → Path env t u ys → Path env s u (xs ++ ys)

/-- Composition where the second part appends nothing. -/
theorem Path.then (h : Path env s t code) (h' : Path env t s' []) :
    Path env s s' code := by
  simpa using h.trans h'

/-- Composition where the first part appends nothing. -/
theorem Path.after (h : Path env s t []) (h' : Path env t s' code) :
    Path env s s' code := by
  simpa using h.trans h'

/-! ## What growth keeps -/

/-- What is the same, and what has only grown, between two states of one lowering. -/
structure Grown (s s' : State) (c c' : Current) : Prop where
  source : c'.source = c.source
  block : c'.block = c.block
  name : c'.machine.name = c.machine.name
  ret : c'.machine.ret = c.machine.ret
  args : c'.machine.args = c.machine.args
  layout : c'.machine.layout = c.machine.layout
  isSealed : c'.machine.isSealed = c.machine.isSealed
  operands : c.machine.operands.toList <+: c'.machine.operands.toList
  vregs : c.machine.nextVReg.toNat ≤ c'.machine.nextVReg.toNat
  blocks : c.machine.blocks.size ≤ c'.machine.blocks.size
  output : s'.output = s.output
  functions : s'.functions = s.functions
  pending : s'.pendingPhis = s.pendingPhis
  values : ∀ v id, s.values.find? v = some id → s'.values.find? v = some id
  blockMap : ∀ b id, s.blocks.find? b = some id → s'.blocks.find? b = some id

namespace Grown

theorem refl (s : State) (c : Current) : Grown s s c c :=
  ⟨rfl, rfl, rfl, rfl, rfl, rfl, rfl, List.prefix_refl _, Nat.le_refl _, Nat.le_refl _,
    rfl, rfl, rfl, fun _ _ h => h, fun _ _ h => h⟩

theorem trans {u : State} {d e : Current} (h : Grown s t c d) (h' : Grown t u d e) :
    Grown s u c e where
  source := h'.source.trans h.source
  block := h'.block.trans h.block
  name := h'.name.trans h.name
  ret := h'.ret.trans h.ret
  args := h'.args.trans h.args
  layout := h'.layout.trans h.layout
  isSealed := h'.isSealed.trans h.isSealed
  operands := h.operands.trans h'.operands
  vregs := Nat.le_trans h.vregs h'.vregs
  blocks := Nat.le_trans h.blocks h'.blocks
  output := h'.output.trans h.output
  functions := h'.functions.trans h.functions
  pending := h'.pending.trans h.pending
  values := fun v id hv => h'.values v id (h.values v id hv)
  blockMap := fun b id hb => h'.blockMap b id (h.blockMap b id hb)

end Grown

private theorem toNat_add_one {a : UInt32} (h : a.toNat + 1 < 2 ^ 32) :
    (a + 1).toNat = a.toNat + 1 := by
  rw [UInt32.toNat_add, UInt32.toNat_one]
  omega

theorem grown_extend {form : Form} (st : Storage) (hadm : c.machine.Admits form) :
    Grown s (s.withMachine c (c.machine.extend form st)) c
      { c with machine := c.machine.extend form st } where
  source := rfl
  block := rfl
  name := rfl
  ret := rfl
  args := rfl
  layout := rfl
  isSealed := rfl
  operands := by
    show _ <+: (c.machine.operands.push ⟨form, st⟩).toList
    rw [Array.toList_push]
    exact List.prefix_append _ _
  vregs := by
    cases form with
    | virt r =>
      show _ ≤ (c.machine.nextVReg + 1).toNat
      rw [toNat_add_one hadm.2]
      omega
    | _ => exact Nat.le_refl _
  blocks := Nat.le_refl _
  output := rfl
  functions := rfl
  pending := rfl
  values := fun _ _ h => h
  blockMap := fun _ _ h => h

/-- A later binding of an unbound key hides nothing. -/
theorem find?_insert_of_unbound {κ α : Type} [DecidableEq κ] {b : Bindings κ α}
    {key other : κ} {x y : α} (hkey : b.find? key = none)
    (hother : b.find? other = some y) :
    (b.insert key x).find? other = some y := by
  rw [Bindings.find?_insert, if_neg]
  · exact hother
  · rintro rfl
    rw [hkey] at hother
    cases hother

theorem Grow.grown (h : Grow env s s' code) (hc : s.current = some c) :
    ∃ c', s'.current = some c' ∧ Grown s s' c c' := by
  cases h with
  | operand current _ admits =>
    cases hc.symm.trans current
    exact ⟨_, rfl, grown_extend _ admits⟩
  | inst current _ _ _ _ =>
    cases hc.symm.trans current
    exact ⟨_, rfl, { Grown.refl s c with blocks := by simp [Machine.Function.appended] }⟩
  | block current unknown _ _ =>
    cases hc.symm.trans current
    exact ⟨_, rfl,
      { Grown.refl s c with
        blocks := by simp [Machine.Function.withBlock]
        blockMap := fun _ _ hb => find?_insert_of_unbound unknown hb }⟩
  | value current unbound _ =>
    exact ⟨c, hc,
      { Grown.refl s c with values := fun _ _ hv => find?_insert_of_unbound unbound hv }⟩
  | reserve current =>
    cases hc.symm.trans current
    exact ⟨_, rfl, { Grown.refl s c with .. }⟩

/-- Along a path, header and insertion block stay and everything else only grows. -/
theorem Path.grown (h : Path env s s' code) (hc : s.current = some c) :
    ∃ c', s'.current = some c' ∧ Grown s s' c c' := by
  induction h generalizing c with
  | refl s => exact ⟨c, hc, Grown.refl s c⟩
  | step h => exact h.grown hc
  | trans _ _ ih ih' =>
    obtain ⟨d, hd, hcd⟩ := ih hc
    obtain ⟨e, he, hde⟩ := ih' hd
    exact ⟨e, he, hcd.trans hde⟩

/-- A change happens to a function being built. -/
theorem Grow.current (h : Grow env s s' code) : ∃ c, s.current = some c := by
  cases h with
  | operand current _ _ => exact ⟨_, current⟩
  | inst current _ _ _ _ => exact ⟨_, current⟩
  | block current _ _ _ => exact ⟨_, current⟩
  | value current _ _ => exact ⟨_, current⟩
  | reserve current => exact ⟨_, current⟩

/-- What is being built after a path was being built before it. -/
theorem Path.shrunk {c' : Current} (h : Path env s s' code) (hc' : s'.current = some c') :
    ∃ c, s.current = some c ∧ Grown s s' c c' := by
  induction h generalizing c' with
  | refl s => exact ⟨c', hc', Grown.refl s c'⟩
  | step h =>
    obtain ⟨c, hc⟩ := h.current
    obtain ⟨d, hd, hg⟩ := h.grown hc
    cases hd.symm.trans hc'
    exact ⟨c, hc, hg⟩
  | trans _ _ ih ih' =>
    obtain ⟨d, hd, hde⟩ := ih' hc'
    obtain ⟨c, hc, hcd⟩ := ih hd
    exact ⟨c, hc, hcd.trans hde⟩

/-- Bindings of values stay along a path. -/
theorem Path.values {v : ValueId} {id : OperandId} (h : Path env s s' code)
    (hv : s.values.find? v = some id) : s'.values.find? v = some id := by
  induction h with
  | refl => exact hv
  | trans _ _ ih ih' => exact ih' (ih hv)
  | step h =>
    cases h with
    | value _ unbound _ => exact find?_insert_of_unbound unbound hv
    | _ => exact hv

/-! ## Finished arenas -/

namespace State

/-- The function being built has the first operands of an arena. -/
def Within (s : State) (a : Arena) : Prop := ∀ c, s.current = some c → c.machine.Within a

end State

/-- A state on the way to a state within an arena is within it. -/
theorem Path.within {a : Arena} (h : Path env s s' code) (ha : s'.Within a) :
    s.Within a := by
  intro c hc
  obtain ⟨c', hc', hg⟩ := h.grown hc
  exact hg.operands.trans (ha c' hc')

/-! ## The code of a path -/

/-- All code of a path has operands of accepted shapes. -/
theorem Path.accepts (h : Path env s s' code) :
    ∀ i ∈ code, i.op.accepts i.operands = true := by
  induction h with
  | refl => simp
  | step h =>
    cases h with
    | inst _ _ _ accepts _ => simpa using accepts
    | _ => simp
  | trans _ _ ih ih' =>
    intro i hi
    rcases List.mem_append.mp hi with hi | hi
    · exact ih i hi
    · exact ih' i hi

end InstSelect.Lowering
