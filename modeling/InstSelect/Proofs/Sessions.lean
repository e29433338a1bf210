import InstSelect.Proofs.Selection

/-!
# The lowering of one function

A function is opened, and from there on its lowering is a sequence of a few kinds of
steps: a block is entered, an instruction is lowered, a value is resolved, a block joins
the layout. `Reached` collects the states that such sequences lead to. The incoming
arguments are bound to the registers of the convention when the function is opened, and
that is never undone.
-/

namespace InstSelect.Lowering

open IR (ValueId InstId Inst)
open Machine (Storage Operand OperandId PhysReg Code Arena Incoming Allocator)

variable {env : Env} {s s' t : State} {id : InstId} {u : Unit} {code : List Code}
  {i : Inst} {ty : IR.Ty} {st : Storage} {sts : List Storage} {j : Nat} {a : Incoming}
  {regs : List PhysReg} {f : IR.Function} {o : Operand}

/-- The states of the lowering of one function. -/
inductive Reached (env : Env) (func : IR.FuncId) : State → Prop
  | opened {s s' : State} {u : Unit} (run : Runs (beginFunction func) env s u s') :
      Reached env func s'
  | entered {s t s' : State} {b : IR.BlockId} {id : Machine.BlockId} {u : Unit}
      (before : Reached env func s) (block : Runs (blockFor b) env s id t)
      (run : Runs (setInsertionBlock id) env t u s') : Reached env func s'
  | lowered {s s' : State} {id : InstId} {u : Unit} (before : Reached env func s)
      (run : Runs (lowerInst id) env s u s') : Reached env func s'
  | resolved {s s' : State} {v : ValueId} {id : OperandId} (before : Reached env func s)
      (run : Runs (resolve v) env s id s') : Reached env func s'
  | laidOut {s s' : State} {id : Machine.BlockId} {u : Unit} (before : Reached env func s)
      (run : Runs (change (·.appendBlock id)) env s u s') : Reached env func s'

/-- Whether a function opens and a block of it is entered, in a state as tested. -/
def enters (env : Env) (func : IR.FuncId) (b : IR.BlockId) (test : State → Bool) : Bool :=
  leaves (beginFunction func) env (.initial env.module.name) fun _ s =>
    leaves (blockFor b) env s fun id s =>
      leaves (setInsertionBlock id) env s fun _ s => test s

theorem reached_of_enters {func : IR.FuncId} {b : IR.BlockId} {test : State → Bool}
    (h : enters env func b test = true) : ∃ s, Reached env func s ∧ test s = true := by
  obtain ⟨_, s1, hopen, h⟩ := runs_of_leaves h
  obtain ⟨id, s2, hblock, h⟩ := runs_of_leaves h
  obtain ⟨_, s, hdirect, h⟩ := runs_of_leaves h
  exact ⟨s, (Reached.opened hopen).entered hblock hdirect, h⟩

/-! ## Opening a function -/

theorem storageOf_of_scalarStorage {role : String} (h : scalarStorage ty role = .ok st) :
    storageOf ty = .ok st := by
  obtain ⟨st', hst', hfloat⟩ := bind_eq_ok.mp h
  split at hfloat
  · cases hfloat
  · cases hfloat
    exact hst'

/-- Arguments of the given classes in the registers of the Windows x64 convention. -/
def incoming (sts : List Storage) : List Incoming :=
  (Abi.win64.argRegisters.zip sts).zipIdx.map fun x => ⟨x.2, x.1.1, x.1.2⟩

theorem getElem?_incoming :
    (incoming sts)[j]? = some a ↔
      a.index = j ∧ Abi.win64.argRegisters[j]? = some a.reg ∧
        sts[j]? = some a.storage := by
  obtain ⟨index, reg, st⟩ := a
  simp only [incoming, List.getElem?_map, List.getElem?_zipIdx, Nat.zero_add,
    List.getElem?_zip_eq_some, Option.map_eq_some_iff, Prod.exists, Incoming.mk.injEq]
  constructor
  · rintro ⟨r, st', j', ⟨r', st'', ⟨hr, hst⟩, heq⟩, rfl, rfl, rfl⟩
    cases heq
    exact ⟨rfl, hr, hst⟩
  · rintro ⟨rfl, hr, hst⟩
    exact ⟨reg, st, index, ⟨reg, st, ⟨hr, hst⟩, rfl⟩, rfl, rfl, rfl⟩

theorem placed_incoming (sts : List Storage) : Machine.Placed (incoming sts) := by
  refine ⟨fun j a ha => (getElem?_incoming.mp ha).1, ?_⟩
  rw [List.prefix_iff_getElem?]
  intro j hj
  have hlt : j < (incoming sts).length := by simpa using hj
  rw [List.getElem_map]
  exact (getElem?_incoming.mp (List.getElem?_eq_getElem hlt)).2.1

theorem map_operand_incoming (sts : List Storage) :
    (incoming sts).map Incoming.operand =
      List.zipWith (fun r st => ⟨.phys r, st⟩) Abi.win64.argRegisters sts := by
  have hoperand : (Incoming.operand ∘ fun x : (PhysReg × Storage) × Nat =>
    ⟨x.2, x.1.1, x.1.2⟩) =
      (fun x : PhysReg × Storage => (⟨.phys x.1, x.2⟩ : Operand)) ∘ Prod.fst := rfl
  rw [incoming, List.map_map, hoperand, ← List.map_map, List.zipIdx_map_fst,
    List.zip_eq_zipWith, List.map_zipWith]

/-- The operands of parameters of the given classes, in registers. -/
def argOperands (regs : List PhysReg) (sts : List Storage) : List Operand :=
  List.zipWith (fun r st => ⟨.phys r, st⟩) regs sts

/-- Parameters become operands one after the other. -/
theorem bindParams_eq_ok {alloc : Allocator} {params : List IR.Ty}
    {f f' : Machine.Function} {ids : List OperandId}
    (hlen : params.length ≤ regs.length) (h : bindParams params regs f = .ok (ids, f')) :
    ∃ sts, List.Forall₂ (fun ty st => scalarStorage ty "parameter" = .ok st) params sts ∧
      f' = { f with operands := f.operands ++ (argOperands regs sts).toArray } ∧
      ids = (List.range' f.operands.size params.length).map fun k => ⟨.ofNat k⟩ := by
  induction params generalizing regs f ids f' with
  | nil =>
    cases h
    exact ⟨[], .nil, by simp [argOperands], rfl⟩
  | cons ty params ih =>
    match regs with
    | [] => simp at hlen
    | reg :: regs =>
      simp only [bindParams, bind_eq_ok, Prod.exists, pure_eq_ok, Prod.mk.injEq] at h
      obtain ⟨st, hst, id, g, hpush, ids, g', hrest, rfl, rfl⟩ := h
      obtain ⟨-, -, rfl, rfl⟩ := Machine.Function.pushOperand_eq_ok.mp hpush
      obtain ⟨sts, hsts, rfl, rfl⟩ := ih (by simpa using hlen) hrest
      exact ⟨st :: sts, .cons hst hsts,
        by simp [argOperands], by simp [List.range'_succ, Machine.Function.nextId]⟩

/--
What a function is before its code: its header, and its parameters in the registers for
arguments.
-/
theorem openFunction_eq_ok {alloc : Allocator} {abi : Abi} {m : Machine.Function}
    (h : openFunction abi f = .ok m) :
    ∃ ret argTypes sts, storageOf f.sig.ret = .ok ret ∧
      f.sig.params.mapM storageOf = .ok argTypes ∧
      m = { Machine.Function.new f.name ret argTypes ⟨f.sig.isVariadic, f.isExternal⟩ with
        args := (List.range sts.length).map fun k => ⟨.ofNat k⟩
        operands := (argOperands abi.argRegisters sts).toArray } ∧
          sts.length ≤ abi.argRegisters.length ∧
      (f.isExternal = true ∧ sts = [] ∨
        f.isExternal = false ∧ scalarStorage f.sig.ret "return value" = .ok ret ∧
        List.Forall₂ (fun ty st => scalarStorage ty "parameter" = .ok st) f.sig.params
        sts) := by
  simp only [openFunction, headerOf, bind_eq_ok, pure_eq_ok] at h
  obtain ⟨header, ⟨ret, hret, argTypes, hargs, rfl⟩, h⟩ := h
  split at h
  · next hext =>
    cases pure_eq_ok.mp h
    exact ⟨ret, argTypes, [], hret, hargs,
      by simp [argOperands, Machine.Function.new], by simp, .inl ⟨hext, rfl⟩⟩
  · next hext =>
    obtain ⟨st, hst, h⟩ := bind_eq_ok.mp h
    split at h
    · cases h
    · next hlimit =>
      simp only [bind_eq_ok, Prod.exists, Machine.Function.setArgs, pure_eq_ok] at h
      obtain ⟨ids, g, hbind, -, -, rfl⟩ := h
      obtain ⟨sts, hsts, rfl, rfl⟩ := bindParams_eq_ok (Nat.not_lt.mp hlimit) hbind
      cases hret.symm.trans (storageOf_of_scalarStorage hst)
      refine ⟨ret, argTypes, sts, hret, hargs, ?_, hsts.length_eq ▸ Nat.not_lt.mp hlimit,
        .inr ⟨Bool.not_eq_true _ ▸ hext, hst, hsts⟩⟩
      simp [Machine.Function.new, hsts.length_eq, List.range_eq_range']

theorem length_argOperands (hlen : sts.length ≤ regs.length) :
    (argOperands regs sts).length = sts.length := by
  simp [argOperands, hlen]

theorem getElem?_argIds {n : Nat} {id : OperandId}
    (h : ((List.range n).map fun k => (⟨.ofNat k⟩ : OperandId))[j]? = some id) :
    j < n ∧ ⟨.ofNat j⟩ = id := by
  obtain ⟨k, hk, hid⟩ := by simpa only [List.getElem?_map, Option.map_eq_some_iff] using h
  obtain ⟨hlt, rfl⟩ := List.getElem?_eq_some_iff.mp hk
  rw [List.getElem_range] at hid
  exact ⟨by simpa using hlt, hid⟩

theorem mem_argOperands (h : o ∈ argOperands regs sts) :
    ∃ r, ∃ st ∈ sts, o = ⟨.phys r, st⟩ := by
  obtain ⟨j, hj, rfl⟩ := List.getElem_of_mem h
  simp only [argOperands, List.getElem_zipWith]
  exact ⟨_, _, List.getElem_mem _, rfl⟩

/-- A function that was opened: its arguments are bound, and it has no code yet. -/
structure Opened (f : IR.Function) (sts : List Storage) (machine : Machine.Function) :
    Prop where
  fits : f.sig.params.length ≤ 4
  params : List.Forall₂ (fun ty st => scalarStorage ty "parameter" = .ok st)
    f.sig.params sts
  ret : scalarStorage f.sig.ret "return value" = .ok machine.ret
  args : List.Forall₂ machine.Names machine.args ((incoming sts).map Incoming.operand)
  blocks : machine.blocks = #[]
  layout : machine.layout = []
  nextVReg : machine.nextVReg = 0
  nextSlot : machine.nextSlot = 0
  isOpen : machine.isSealed = false

/-- Opening a defined function puts its arguments into the registers of the convention. -/
theorem openFunction_opened {alloc : Allocator} {machine : Machine.Function}
    (hdef : f.isExternal = false) (h : openFunction .win64 f = .ok machine) :
    ∃ sts, Opened f sts machine := by
  obtain ⟨ret, argTypes, sts, -, -, rfl, hlen, ⟨hext, -⟩ | ⟨-, hst, hsts⟩⟩ :=
    openFunction_eq_ok h
  · cases hdef.symm.trans hext
  · refine ⟨sts, hsts.length_eq ▸ hlen, hsts, hst, ?_, rfl, rfl, rfl, rfl, rfl⟩
    rw [map_operand_incoming, List.forall₂_iff_get]
    refine ⟨by simpa [argOperands] using hlen, fun j _ hj => ⟨j, ?_, by simp⟩⟩
    exact (List.getElem?_toArray ..).trans (List.getElem?_eq_getElem hj)

/-! ## The states of a session -/

/-- What a value is bound to: the operand of a leaf, or the result of an instruction. -/
inductive Bound (env : Env) (s : State) (c : Current) (v : ValueId) (id : OperandId) :
    Prop
  | leaf (leaf : Leaf env s c v id)
  | result (k : InstId) (i : Inst) (inst : env.module.inst k = .ok i)
      (value : i.value = v)
      (object : i.opcode = .alloca → ∀ A : Arena, c.machine.Within A →
        ∃ ty slot size align, i.ty = .ptr ty ∧
        A.get? id = some ⟨.slot slot size align, .ptr⟩)

/-- What holds from the opening of a function on. -/
structure Session (env : Env) (func : IR.FuncId) (f : IR.Function) (sts : List Storage)
    (s : State) (c : Current) : Prop where
  current : s.current = some c
  source : c.source = func
  isOpen : c.machine.isSealed = false
  fits : f.sig.params.length ≤ 4
  params : List.Forall₂ (fun ty st => scalarStorage ty "parameter" = .ok st)
    f.sig.params sts
  ret : scalarStorage f.sig.ret "return value" = .ok c.machine.ret
  args : List.Forall₂ c.machine.Names c.machine.args ((incoming sts).map Incoming.operand)
  bound : ∀ v id, s.values.find? v = some id → Bound env s c v id
  blocks : ∀ b id, s.blocks.find? b = some id → id.index.toNat < c.machine.blocks.size
  insertion : ∀ id, c.block = some id → id.index.toNat < c.machine.blocks.size

variable {func : IR.FuncId} {f : IR.Function} {sts : List Storage} {c c' : Current}

/--
What stays between two states of a session: the header, and all operands and blocks.
-/
structure Persists (s s' : State) (c c' : Current) : Prop where
  current : s'.current = some c'
  source : c'.source = c.source
  isSealed : c'.machine.isSealed = c.machine.isSealed
  ret : c'.machine.ret = c.machine.ret
  args : c'.machine.args = c.machine.args
  operands : c.machine.operands.toList <+: c'.machine.operands.toList
  blocks : ∀ b id, s.blocks.find? b = some id → s'.blocks.find? b = some id

theorem Grown.persists (hg : Grown s s' c c') (hc' : s'.current = some c') :
    Persists s s' c c' :=
  ⟨hc', hg.source, hg.isSealed, hg.ret, hg.args, hg.operands, hg.blockMap⟩

theorem Bound.mono {v : ValueId} {id : OperandId} (h : Bound env s c v id)
    (hp : Persists s s' c c') : Bound env s' c' v id := by
  cases h with
  | leaf leaf => exact .leaf (leaf.mono hp.source hp.args hp.operands hp.blocks)
  | result k i inst value object =>
    exact .result k i inst value fun hop A hA => object hop A (hp.operands.trans hA)

/-- A session goes on if bindings and blocks are as they should be. -/
theorem Session.persists (h : Session env func f sts s c) (hp : Persists s s' c c')
    (hbound : ∀ v id, s'.values.find? v = some id →
      s.values.find? v = some id ∨ Bound env s' c' v id)
    (hblocks : ∀ b id, s'.blocks.find? b = some id →
      id.index.toNat < c'.machine.blocks.size)
    (hinsertion : ∀ id, c'.block = some id → id.index.toNat < c'.machine.blocks.size) :
    Session env func f sts s' c' where
  current := hp.current
  source := hp.source.trans h.source
  isOpen := hp.isSealed.trans h.isOpen
  fits := h.fits
  params := h.params
  ret := by rw [hp.ret]; exact h.ret
  args := by
    rw [hp.args]
    exact h.args.imp fun _ _ hn => hn.mono hp.operands
  bound := by
    intro v id hv
    rcases hbound v id hv with hold | hnew
    · exact (h.bound v id hold).mono hp
    · exact hnew
  blocks := hblocks
  insertion := hinsertion

theorem runs_beginFunction (h : Runs (beginFunction func) env s u s') :
    ∃ f machine, env.module.function func = .ok f ∧
      @openFunction env.allocator env.abi f = .ok machine ∧
      s' = { s.reset with current := some ⟨func, machine, none⟩ } := by
  simp only [beginFunction, runs_bind, runs_modify, runs_sourceModule, runs_theAllocator,
    runs_theAbi, runs_check] at h
  obtain ⟨_, _, rfl, _, _, ⟨rfl, rfl⟩, f, _, ⟨hf, rfl⟩, _, _, ⟨rfl, rfl⟩, _, _,
    ⟨rfl, rfl⟩, machine, _, ⟨hopen, rfl⟩, rfl⟩ := h
  exact ⟨f, machine, hf, hopen, rfl⟩

theorem session_of_beginFunction (habi : env.abi = .win64)
    (hfunc : env.module.function func = .ok f) (hdef : f.isExternal = false)
    (h : Runs (beginFunction func) env s u s') :
    ∃ sts c, Session env func f sts s' c := by
  obtain ⟨f', machine, hf', hopen, rfl⟩ := runs_beginFunction h
  cases hfunc.symm.trans hf'
  rw [habi] at hopen
  obtain ⟨sts, ho⟩ := openFunction_opened hdef hopen
  exact ⟨sts, _, rfl, rfl, ho.isOpen, ho.fits, ho.params, ho.ret, ho.args,
    fun v id hv => (by cases hv), fun b id hb => (by cases hb),
    fun id hid => (by cases hid)⟩

/--
What values are bound to stays what it is, and a value that is newly bound is a leaf.
-/
theorem Grow.bound (hgrow : Grow env s s' code) (hc : s.current = some c)
    (hc' : s'.current = some c')
    (hbound : ∀ v id, s.values.find? v = some id → Bound env s c v id) :
    ∀ v id, s'.values.find? v = some id → Bound env s' c' v id := by
  obtain ⟨d, hd, hg⟩ := hgrow.grown hc
  cases hc'.symm.trans hd
  have hp := hg.persists hc'
  intro v id hv
  cases hgrow with
  | @value d v' id' current unbound leaf =>
    cases hc.symm.trans current
    rw [Bindings.find?_insert] at hv
    split at hv
    · next heq =>
      subst heq
      cases hv
      exact .leaf (leaf.mono hp.source hp.args hp.operands hp.blocks)
    · exact (hbound v id hv).mono hp
  | _ => exact (hbound v id hv).mono hp

/-- The blocks of source blocks are there. -/
theorem Grow.blocks_lt (hgrow : Grow env s s' code) (hc : s.current = some c)
    (hc' : s'.current = some c')
    (hblocks : ∀ b id, s.blocks.find? b = some id →
      id.index.toNat < c.machine.blocks.size) :
    ∀ b id, s'.blocks.find? b = some id → id.index.toNat < c'.machine.blocks.size := by
  obtain ⟨d, hd, hg⟩ := hgrow.grown hc
  cases hc'.symm.trans hd
  intro b id hb
  cases hgrow with
  | @block d b' data current unknown hdata source =>
    cases hc.symm.trans current
    cases hc'
    have hsize : (c.machine.withBlock (data.name.getD (toString b'))).blocks.size =
        c.machine.blocks.size + 1 := Array.size_push ..
    rw [Bindings.find?_insert] at hb
    split at hb
    · cases hb
      show (UInt32.ofNat c.machine.blocks.size).toNat < _
      have := Nat.mod_le c.machine.blocks.size (2 ^ 32)
      rw [hsize, UInt32.toNat_ofNat']
      omega
    · have := hblocks b id hb
      rw [hsize]
      omega
  | _ => exact Nat.lt_of_lt_of_le (hblocks b id hb) hg.blocks

theorem Session.grow (h : Session env func f sts s c) (hgrow : Grow env s s' code) :
    ∃ c', Session env func f sts s' c' := by
  obtain ⟨c', hc', hg⟩ := hgrow.grown h.current
  refine ⟨c', h.persists (hg.persists hc')
    (fun v id hv => .inr (hgrow.bound h.current hc' h.bound v id hv))
    (hgrow.blocks_lt h.current hc' h.blocks) fun id hid => ?_⟩
  exact Nat.lt_of_lt_of_le (h.insertion id (hg.block.symm.trans hid)) hg.blocks

/-- A session goes on along a path. -/
theorem Session.path (h : Session env func f sts s c) (hp : Path env s s' code) :
    ∃ c', Session env func f sts s' c' := by
  induction hp generalizing c with
  | refl => exact ⟨c, h⟩
  | step hgrow => exact h.grow hgrow
  | trans _ _ ih ih' =>
    obtain ⟨d, hd⟩ := ih h
    exact ih' hd

/-- The result of an `alloca` is its slot. -/
theorem lowerInst_object (h : Runs (lowerInst id) env s u s')
    (hi : env.module.inst id = .ok i) (hop : i.opcode = .alloca) :
    ∃ o, s'.values.find? i.value = some o ∧ ∀ A : Arena, s'.Within A →
      ∃ ty slot size align, i.ty = .ptr ty ∧
        A.get? o = some ⟨.slot slot size align, .ptr⟩ := by
  obtain ⟨i', r, t, hi', hselect, hbind⟩ := runs_lowerInst h
  cases hi.symm.trans hi'
  simp only [selectInst, hop] at hselect
  obtain ⟨o, rfl, hrun⟩ := some_map hselect
  obtain ⟨hunbound, rfl⟩ := hbind
  obtain ⟨ty, slot, size, align, hty, hadds⟩ := lowerAlloca_adds hrun
  exact ⟨o, Bindings.find?_insert_self _ _ _, fun A hA =>
    ⟨ty, slot, size, align, hty, hadds.get A hA⟩⟩

theorem Binds.persists (h : Binds id i t s') (hc : t.current = some c) :
    Persists t s' c c :=
  ⟨h.current.trans hc, rfl, rfl, rfl, rfl, List.prefix_refl _,
    by cases h <;> exact fun _ _ hb => hb⟩

/-- What is bound after an instruction was lowered. -/
theorem Binds.bound (h : Binds id i t s') (hc : t.current = some c)
    (hi : env.module.inst id = .ok i) (hrun : Runs (lowerInst id) env s u s')
      (hbound : ∀ v o, t.values.find? v = some o → Bound env t c v o) :
    ∀ v o, s'.values.find? v = some o → Bound env s' c v o := by
  intro v o hv
  by_cases hvalue : v = i.value
  · subst hvalue
    refine .result id i hi rfl fun hop A hA => ?_
    obtain ⟨o', ho', hslot⟩ := lowerInst_object hrun hi hop
    cases hv.symm.trans ho'
    exact hslot A fun e he => by
      cases (h.current.trans hc).symm.trans he
      exact hA
  · have hne : ∀ x, (t.values.insert i.value x).find? v = some o →
        t.values.find? v = some o := by
      intro x hx
      rwa [Bindings.find?_insert, if_neg (Ne.symm hvalue)] at hx
    have hold : t.values.find? v = some o := by
      cases h with
      | nothing => exact hv
      | result x unbound => exact hne x hv
      | phi x unbound isPhi => exact hne x hv
    exact (hbound v o hold).mono (h.persists hc)

theorem Binds.blocks (h : Binds id i t s') : s'.blocks = t.blocks := by
  cases h <;> rfl

theorem Session.lowerInst (habi : env.abi = .win64) (h : Session env func f sts s c)
    (hrun : Runs (lowerInst id) env s u s') : ∃ c', Session env func f sts s' c' := by
  obtain ⟨i, t, code, hi, hpath, hbinds⟩ := lowerInst_path habi hrun
  obtain ⟨d, hd⟩ := h.path hpath
  refine ⟨d, hd.persists (hbinds.persists hd.current)
    (fun v o hv => .inr (hbinds.bound hd.current hi hrun hd.bound v o hv))
    (fun b mb hb => ?_) hd.insertion⟩
  rw [hbinds.blocks] at hb
  exact hd.blocks b mb hb

/-! ## Later states -/

/-- Bindings and operands are still there. -/
structure Carried (s s' : State) : Prop where
  values : ∀ v id, s.values.find? v = some id → s'.values.find? v = some id
  current : ∀ c, s.current = some c → ∃ c', s'.current = some c' ∧
    c.machine.operands.toList <+: c'.machine.operands.toList

namespace Carried

theorem refl (s : State) : Carried s s :=
  ⟨fun _ _ hv => hv, fun c hc => ⟨c, hc, List.prefix_refl _⟩⟩

theorem trans (h : Carried s t) (h' : Carried t s') : Carried s s' := by
  refine ⟨fun v id hv => h'.values v id (h.values v id hv), fun c hc => ?_⟩
  obtain ⟨d, hd, hprefix⟩ := h.current c hc
  obtain ⟨c', hc', hprefix'⟩ := h'.current d hd
  exact ⟨c', hc', hprefix.trans hprefix'⟩

theorem of_path (h : Path env s s' code) : Carried s s' := by
  refine ⟨fun _ _ hv => h.values hv, fun c hc => ?_⟩
  obtain ⟨c', hc', hgrown⟩ := h.grown hc
  exact ⟨c', hc', hgrown.operands⟩

theorem of_binds (h : Binds id i t s') : Carried t s' := by
  refine ⟨fun v o hv => ?_, fun c hc => ⟨c, h.current.trans hc, List.prefix_refl _⟩⟩
  have hother : ∀ p, t.values.find? i.value = none →
      (t.values.insert i.value p).find? v = some o := by
    intro p hunbound
    have hne : i.value ≠ v := by
      rintro rfl
      rw [hunbound] at hv
      cases hv
    rwa [Bindings.find?_insert, if_neg hne]
  cases h with
  | nothing => exact hv
  | result p hunbound => exact hother p hunbound
  | phi p hunbound _ => exact hother p hunbound

end Carried

/-- Every state of the lowering of a defined function is the state of a session. -/
theorem Reached.session (habi : env.abi = .win64)
    (hfunc : env.module.function func = .ok f) (hdef : f.isExternal = false)
    (h : Reached env func s) :
    ∃ sts c, Session env func f sts s c := by
  induction h with
  | opened run => exact session_of_beginFunction habi hfunc hdef run
  | @entered s t s' b id u _ block run ih =>
    obtain ⟨sts, c, hs⟩ := ih
    obtain ⟨hpath, -, -, hfind⟩ := blockFor_path block
    obtain ⟨d, hd⟩ := hs.path hpath
    obtain rfl := runs_setInsertionBlock.mp run
    refine ⟨sts, { d with block := some id },
      hd.persists ⟨by rw [hd.current]; rfl, rfl, rfl, rfl,
        rfl, List.prefix_refl _, fun _ _ hb => hb⟩ (fun _ _ hv => .inl hv) hd.blocks ?_⟩
    rintro _ ⟨⟩
    exact hd.blocks b id hfind
  | lowered _ run ih =>
    obtain ⟨sts, c, hs⟩ := ih
    exact ⟨sts, hs.lowerInst habi run⟩
  | resolved _ run ih =>
    obtain ⟨sts, c, hs⟩ := ih
    obtain ⟨hpath, -⟩ := resolve_path run
    exact ⟨sts, hs.path hpath⟩
  | laidOut _ run ih =>
    obtain ⟨sts, c, hs⟩ := ih
    obtain ⟨d, machine, hd, happend, rfl⟩ := runs_change.mp run
    obtain ⟨-, -, -, -, rfl⟩ := Machine.Function.appendBlock_eq_ok.mp happend
    cases hs.current.symm.trans hd
    exact ⟨sts, _, hs.persists ⟨rfl, rfl, rfl, rfl, rfl, List.prefix_refl _,
      fun _ _ hb => hb⟩ (fun _ _ hv => .inl hv) hs.blocks hs.insertion⟩

/-- The arena of the function being built, as long as ids are enough for it. -/
def Current.arena (c : Current) (hsmall : c.machine.operands.size ≤ 2 ^ 32) : Arena :=
  ⟨c.machine.operands.toList, by simpa using hsmall⟩

theorem within_arena (hc : s.current = some c)
    (hsmall : c.machine.operands.size ≤ 2 ^ 32) :
    s.Within (c.arena hsmall) := by
  intro d hd
  cases hc.symm.trans hd
  exact List.prefix_refl _

theorem operand_of_arena {id : OperandId} {hsmall : c.machine.operands.size ≤ 2 ^ 32}
    (h : (c.arena hsmall).get? id = some o) : c.machine.operand id = .ok o := by
  have hget : c.machine.operands[id.index.toNat]? = some o := by
    rw [← Array.getElem?_toList]
    exact h
  rw [Machine.Function.operand, hget]

/-- The arguments of a session, as a finished arena knows them. -/
theorem Session.arguments {A : Arena} (h : Session env func f sts s c) (hA : s.Within A) :
    Arguments A s (incoming sts) := by
  refine ⟨fun c' hc' => ?_, placed_incoming sts⟩
  cases h.current.symm.trans hc'
  exact Machine.Function.mapM_eq_some.mpr (h.args.imp fun _ _ hn =>
    hn.get? (hA c h.current))

/-- The incoming argument that a parameter is. -/
theorem Session.mem_incoming (h : Session env func f sts s c) {r : PhysReg}
    (hty : f.sig.params[j]? = some ty) (hr : Abi.win64.argRegisters[j]? = some r)
    (hst : storageOf ty = .ok st) : ⟨j, r, st⟩ ∈ incoming sts := by
  obtain ⟨hlt, rfl⟩ := List.getElem?_eq_some_iff.mp hty
  have hlt' : j < sts.length := by rwa [← h.params.length_eq]
  have hparam := storageOf_of_scalarStorage (h.params.get hlt hlt')
  refine List.mem_of_getElem? (i := j) (getElem?_incoming.mpr ⟨rfl, hr, ?_⟩)
  rw [List.getElem?_eq_getElem hlt']
  exact congrArg some (Except.ok.inj (hparam.symm.trans hst))

/-- The parameter that an incoming argument is. -/
theorem Session.of_mem_incoming (h : Session env func f sts s c) (ha : a ∈ incoming sts) :
    ∃ ty, f.sig.params[a.index]? = some ty ∧
      Abi.win64.argRegisters[a.index]? = some a.reg ∧ storageOf ty = .ok a.storage := by
  obtain ⟨j, hj⟩ := List.mem_iff_getElem?.mp ha
  obtain ⟨rfl, hr, hst⟩ := getElem?_incoming.mp hj
  obtain ⟨hlt, hst⟩ := List.getElem?_eq_some_iff.mp hst
  have hlt' : a.index < f.sig.params.length := by rwa [h.params.length_eq]
  refine ⟨_, List.getElem?_eq_getElem hlt', hr, ?_⟩
  rw [← hst]
  exact storageOf_of_scalarStorage (h.params.get hlt' hlt)

/-- Closing an open function adds it to the program. -/
theorem runs_closeFunction {id : Machine.FuncId} :
    Runs (closeFunction func) env s id s' ↔
      ∃ c, s.current = some c ∧ c.machine.isSealed = false ∧
        env.allocator.refusal? .function = none ∧
          id = ⟨UInt32.ofNat s.output.functions.length⟩ ∧
        s' = { s with
          current := none
          output := { s.output with
            functions := s.output.functions ++ [{ c.machine with isSealed := true }] }
          functions := s.functions.insert func id } := by
  simp only [closeFunction, runs_bind, runs_machine, runs_modify, runs_check, runs_get,
    runs_pure,
    runs_theAllocator, Machine.Function.finish, Machine.Function.checkOpen_eq_ok,
    ask_eq_ok, Machine.Program.pushFunction, require_eq_ok, bind_eq_ok, pure_eq_ok]
  constructor
  · rintro ⟨_, _, ⟨c, hc, rfl, rfl⟩, _, _, rfl, _, _, ⟨⟨_, hopen, rfl⟩, rfl⟩, _, _, ⟨rfl,
      rfl⟩, _, _, ⟨rfl, rfl⟩, _, _, ⟨⟨_, _, _, hgrant, rfl⟩, rfl⟩, _, _, rfl, rfl, rfl⟩
    exact ⟨c, hc, hopen, hgrant, rfl, rfl⟩
  · rintro ⟨c, hc, hopen, hgrant, rfl, rfl⟩
    exact ⟨_, s, ⟨c, hc, rfl, rfl⟩, (), _, rfl, _, _, ⟨⟨(), hopen, rfl⟩, rfl⟩, _, _,
      ⟨rfl, rfl⟩, _, _,
      ⟨rfl, rfl⟩, (_, _), _, ⟨⟨(), rfl, (), hgrant, rfl⟩, rfl⟩, (), _, rfl, rfl, rfl⟩

/-- The four stages of lowering a function that is no intrinsic. -/
theorem runs_lowerFunction {id : Machine.FuncId}
    (hfunc : env.module.function func = .ok f) :
    Runs (lowerFunction func) env s (some id) s' ↔
      env.abi.isIntrinsic f.name = false ∧
        ∃ s1 s2 s3, Runs (beginFunction func) env s () s1 ∧
        Runs (f.blocks.forM lowerBlock) env s1 () s2 ∧
          Runs resolvePendingPhis env s2 () s3 ∧
        Runs (closeFunction func) env s3 id s' := by
  simp only [lowerFunction, runs_bind, runs_sourceModule, runs_check, runs_theAbi]
  constructor
  · rintro ⟨_, _, ⟨rfl, rfl⟩, f', _, ⟨hf', rfl⟩, _, _, ⟨rfl, rfl⟩, h⟩
    cases hfunc.symm.trans hf'
    split at h
    · cases (runs_pure.mp h).1
    · next hname =>
      simp only [runs_bind, runs_map] at h
      obtain ⟨_, s1, h1, _, s2, h2, _, s3, h3, _, h4, heq⟩ := h
      cases heq
      exact ⟨(Bool.not_eq_true _).mp hname, s1, s2, s3, h1, h2, h3, h4⟩
  · rintro ⟨hname, s1, s2, s3, h1, h2, h3, h4⟩
    refine ⟨_, s, ⟨rfl, rfl⟩, f, s, ⟨hfunc, rfl⟩, _, s, ⟨rfl, rfl⟩, ?_⟩
    rw [hname]
    exact runs_bind.mpr ⟨(), s1, h1, runs_bind.mpr ⟨(), s2, h2, runs_bind.mpr ⟨(), s3, h3,
      runs_map.mpr ⟨id, h4, rfl⟩⟩⟩⟩

/-! ## The code of a state -/

namespace State

/-- The block that receives code. -/
def insertion (s : State) : Option Machine.BlockId := s.current.bind (·.block)

/-- The instructions of a block of the function being built. -/
def instsOf (s : State) (b : Machine.BlockId) : List Machine.Inst :=
  ((s.current.bind fun c => c.machine.blocks[b.index.toNat]?).map (·.insts)).getD []

/-- The instructions of the block that receives code. -/
def insertionInsts (s : State) : List Machine.Inst := (s.insertion.map s.instsOf).getD []

end State

/-- The block that receives code has gained instructions, and no other block has. -/
structure Gains (s s' : State) (insts : List Machine.Inst) : Prop where
  insertion : s'.insertion = s.insertion
  here : s'.insertionInsts = s.insertionInsts ++ insts
  others : ∀ b, s.insertion ≠ some b → s'.instsOf b = s.instsOf b

namespace Gains

theorem trans {xs ys : List Machine.Inst} (h : Gains s t xs) (h' : Gains t s' ys) :
    Gains s s' (xs ++ ys) where
  insertion := h'.insertion.trans h.insertion
  here := by rw [h'.here, h.here, List.append_assoc]
  others := fun b hb => (h'.others b (by rwa [h.insertion])).trans (h.others b hb)

/-- Only the blocks of the function being built count. -/
theorem of_blocks (hc : s.current = some c) (hc' : s'.current = some c')
    (hblock : c'.block = c.block)
    (hinsts : ∀ b : Machine.BlockId,
      (c'.machine.blocks[b.index.toNat]?.map (·.insts)).getD [] =
      (c.machine.blocks[b.index.toNat]?.map (·.insts)).getD []) : Gains s s' [] := by
  have hinsertion : s'.insertion = s.insertion := by
    rw [State.insertion, State.insertion, hc, hc']
    exact hblock
  have hsame : s'.instsOf = s.instsOf := by
    funext b
    rw [State.instsOf, State.instsOf, hc, hc']
    exact hinsts b
  refine ⟨hinsertion, ?_, fun b _ => congrFun hsame b⟩
  rw [State.insertionInsts, State.insertionInsts, hinsertion, hsame, List.append_nil]

/-- Bindings do not count. -/
theorem of_current {insts : List Machine.Inst} (h : Gains s t insts)
    (hc : s'.current = t.current) :
    Gains s s' insts := by
  have hinsertion : s'.insertion = t.insertion :=
    by rw [State.insertion, State.insertion, hc]
  have hinsts : s'.instsOf = t.instsOf := by
    funext b
    rw [State.instsOf, State.instsOf, hc]
  refine ⟨hinsertion.trans h.insertion, ?_, fun b hb => by rw [hinsts, h.others b hb]⟩
  rw [← h.here, State.insertionInsts, State.insertionInsts, hinsertion, hinsts]

end Gains

/-- An appended instruction is what the block that receives code gains. -/
theorem gains_appended {id : Machine.BlockId} {b : Machine.Block} {i : Machine.Inst}
    (hc : s.current = some c) (hblock : c.block = some id)
    (hb : c.machine.blocks[id.index.toNat]? = some b) :
    Gains s (s.withMachine c (c.machine.appended id b i)) [i] := by
  have hlt := (Array.getElem?_eq_some_iff.mp hb).1
  have hins : s.insertion = some id := by rw [State.insertion, hc]; exact hblock
  have hins' : (s.withMachine c (c.machine.appended id b i)).insertion = some id := hblock
  refine ⟨?_, ?_, ?_⟩
  · rw [hins]
    exact hblock
  · rw [State.insertionInsts, State.insertionInsts, hins, hins']
    show State.instsOf _ id = State.instsOf s id ++ _
    rw [State.instsOf, State.instsOf, hc]
    show ((c.machine.blocks.setIfInBounds _ _)[id.index.toNat]?.map _).getD [] =
      (c.machine.blocks[id.index.toNat]?.map _).getD [] ++ _
    rw [Array.getElem?_setIfInBounds_self_of_lt hlt, hb]
    rfl
  · intro b' hb'
    have hne : id.index.toNat ≠ b'.index.toNat := by
      intro heq
      exact hb' (hins.trans
        (congrArg (fun k => some (⟨k⟩ : Machine.BlockId)) (UInt32.toNat_inj.mp heq)))
    rw [State.instsOf, State.instsOf, hc]
    show ((c.machine.blocks.setIfInBounds _ _)[b'.index.toNat]?.map _).getD [] = _
    rw [Array.getElem?_setIfInBounds_ne hne]
    rfl

theorem Grow.gains (h : Grow env s s' code) (hc' : s'.current = some c') :
    ∃ insts, Gains s s' insts ∧ c'.machine.Decodes insts code := by
  cases h with
  | operand current _ _ =>
    exact ⟨[], .of_blocks current rfl rfl fun _ => rfl, .nil⟩
  | value current _ _ =>
    exact ⟨[], .of_blocks current current rfl fun _ => rfl, .nil⟩
  | reserve current =>
    exact ⟨[], .of_blocks current rfl rfl fun _ => rfl, .nil⟩
  | @block c b data current _ _ _ =>
    -- A new block is as empty as a missing one.
    refine ⟨[], .of_blocks current rfl rfl fun b' => ?_, .nil⟩
    show ((c.machine.blocks.push _)[b'.index.toNat]?.map _).getD [] = _
    rw [Array.getElem?_push]
    split
    · next heq =>
      rw [heq, Array.getElem?_eq_none (Nat.le_refl _)]
      rfl
    · rfl
  | @inst c id b op ids os current block operands accepts hb =>
    cases hc'
    exact ⟨[⟨op, ids⟩], gains_appended current block hb, .cons ⟨rfl, operands⟩ .nil⟩

/-- What a path appends is what the block that receives code gains. -/
theorem Path.gains (h : Path env s s' code) (hc' : s'.current = some c') :
    ∃ insts, Gains s s' insts ∧ c'.machine.Decodes insts code := by
  induction h generalizing c' with
  | refl s => exact ⟨[], .of_blocks hc' hc' rfl fun _ => rfl, .nil⟩
  | step h => exact h.gains hc'
  | trans _ h' ih ih' =>
    obtain ⟨d, hd, hg⟩ := h'.shrunk hc'
    obtain ⟨xs, hxs, dxs⟩ := ih hd
    obtain ⟨ys, hys, dys⟩ := ih' hc'
    exact ⟨xs ++ ys, hxs.trans hys, List.rel_append (dxs.mono hg.operands) dys⟩

end InstSelect.Lowering
