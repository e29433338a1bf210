import InstSelect.Proofs.CopyPlacement

/-!
# How a machine function is put together

Lowering a function opens it, fills its blocks one after the other, places the copies of
its phis, and seals it. `Assembly` records the states between these stages together with
the segments and the copies, so that properties of the finished function can be stated of
the code that each instruction was lowered to. Nothing here depends on the calling
convention.
-/

namespace InstSelect.Lowering

open Machine (Operand VReg withCopies)

variable {env : Env} {func : IR.FuncId} {s s' : State} {f : IR.Function}
  {P : Operand → Prop}

/-! ## Opening a function -/

/--
A function that was opened has no code, no virtual registers and no stack for calls.
-/
structure Unfilled (m : Machine.Function) : Prop where
  operands : ∀ o ∈ m.operands, ∃ r, o.form = .phys r
  args : ∀ id ∈ m.args, id.index.toNat < m.operands.size
  blocks : m.blocks = #[]
  layout : m.layout = []
  nextVReg : m.nextVReg = 0
  nextSlot : m.nextSlot = 0
  maxCallStack : m.maxCallStack = 0
  isOpen : m.isSealed = false

theorem openFunction_unfilled {alloc : Machine.Allocator} {abi : Abi}
    {m : Machine.Function} (h : openFunction abi f = .ok m) : Unfilled m := by
  obtain ⟨ret, argTypes, sts, -, -, rfl, hlen, -⟩ := openFunction_eq_ok h
  refine ⟨fun o ho => ?_, fun id hid => ?_, rfl, rfl, rfl, rfl, rfl, rfl⟩
  · obtain ⟨r, st, -, rfl⟩ := mem_argOperands (List.mem_toArray.mp ho)
    exact ⟨r, rfl⟩
  · obtain ⟨k, hk, rfl⟩ := List.mem_map.mp hid
    show (UInt32.ofNat k).toNat < (argOperands abi.argRegisters sts).toArray.size
    rw [UInt32.toNat_ofNat', List.size_toArray, length_argOperands hlen]
    exact Nat.lt_of_le_of_lt (Nat.mod_le ..) (List.mem_range.mp hk)

/-- The state after opening a function. -/
theorem settled_of_beginFunction {w : Unit} (h : Runs (beginFunction func) env s w s') :
    ∃ c, Settled env s' c ∧ Unfilled c.machine ∧ c.source = func ∧ s'.pendingPhis = [] ∧
      s'.blocks = .empty ∧ s'.output = s.output := by
  obtain ⟨f, m, hf, hopen, rfl⟩ := runs_beginFunction h
  have hm := openFunction_unfilled hopen
  refine ⟨⟨func, m, none⟩, ⟨rfl, ?_, fun id hid => ?_, fun v id hv => (by cases hv)⟩, hm,
    rfl, rfl, rfl, rfl⟩
  · refine .of_empty (fun o ho => ?_) hm.nextVReg
    obtain ⟨r, hr⟩ := hm.operands o ho
    simp [Operand.vregs, hr]
  · obtain ⟨⟨form, st⟩, ho⟩ : ∃ o, m.operands[id.index.toNat]? = some o :=
      ⟨_, Array.getElem?_eq_getElem (hm.args id hid)⟩
    obtain ⟨r, rfl⟩ := hm.operands _ (Array.mem_of_getElem? ho)
    exact ⟨r, st, _, rfl, ho⟩

/-- What holds of the registers of phis holds of what the copies of waiting phis write. -/
theorem Awaited.writable {segs : List Segment} (h : Awaited env segs s)
    (hP : ∀ seg ∈ segs, ∀ i dst o, env.module.inst seg.inst = .ok i → i.opcode = .phi →
      seg.after.values.find? i.value = some dst → s.Holds dst o →
        (∃ r, o.form = .virt r) → P o) :
    ∀ k ∈ s.pendingPhis, PhiWritable env P s k := by
  intro k hk
  obtain ⟨seg, hseg, rfl, i, dst, hi, hphi, hafter, hv, hdst⟩ := h k hk
  refine ⟨i, dst, hi, hv, fun hsmall => ?_⟩
  obtain ⟨o, ho, hr⟩ := hdst hsmall
  exact ⟨o, ho, hP seg hseg i dst o hi hphi hafter ho hr⟩

/-! ## Assemblies -/

/-- The stages of the lowering of one function. -/
structure Assembly (env : Env) (func : IR.FuncId) (s s' : State) where
  source : IR.Function
  /-- The state after opening the function. -/
  opened : State
  /-- The state after its last block. -/
  filled : State
  /-- The state after the copies of its phis. -/
  copied : State
  /-- The finished function. -/
  machine : Machine.Function
  /-- The code of the blocks, instruction by instruction. -/
  parts : List Part
  /-- The copies in each block. -/
  copies : Machine.BlockId → List Machine.Inst
  function : env.module.function func = .ok source
  opening : Runs (beginFunction func) env s () opened
  filling : Parts env opened parts filled
  blocks : parts.map Part.block = source.blocks
  copying : Runs resolvePendingPhis env filled () copied
  placed : ∀ mb, copied.instsOf mb = withCopies (copies mb) (filled.instsOf mb)
  finished : ∃ c, copied.current = some c ∧ machine = { c.machine with isSealed := true }
  output : s'.output.functions = s.output.functions ++ [machine]

namespace Assembly

variable (A : Assembly env func s s')

/-- All segments, in the order of the layout. -/
def segments : List Segment := A.parts.flatMap Part.segments

/-- A register that was given to a phi. -/
def PhiReg (r : VReg) : Prop :=
  ∃ seg ∈ A.segments, ∃ i dst o, env.module.inst seg.inst = .ok i ∧ i.opcode = .phi ∧
    seg.after.values.find? i.value = some dst ∧
    A.machine.operands[dst.index.toNat]? = some o ∧
    o.form = .virt r

/-- A register that was numbered when the copies were placed. -/
def Temporary (r : VReg) : Prop := A.filled.vregs ≤ r.index.toNat

/-- The states of an assembly, and what its blocks hold before the copies. -/
theorem filling_code : ∃ c d, Settled env A.opened c ∧ Unfilled c.machine ∧
    c.source = func ∧
    A.opened.pendingPhis = [] ∧ Settled env A.filled d ∧ Leads A.opened A.filled c d ∧
    d.machine.layout = A.parts.map Part.id ∧ d.machine.layout.Nodup ∧
    ∀ p ∈ A.parts, p.id.index.toNat < d.machine.blocks.size ∧
      A.filled.instsOf p.id = p.insts := by
  obtain ⟨c, hc, hm, hsource, hpending, -, -⟩ := settled_of_beginFunction A.opening
  have hblank : Blank A.opened c := by
    intro mb _
    simp [State.instsOf, hc.current, hm.blocks]
  obtain ⟨d, hd, hleads, hlayout, hnodup, -, -, hparts⟩ := A.filling.code hc hblank
  rw [hm.layout] at hlayout hnodup
  exact ⟨c, d, hc, hm, hsource, hpending, hd, hleads, hlayout,
    hnodup List.nodup_nil, hparts⟩

theorem awaited : Awaited env A.segments A.filled := by
  obtain ⟨c, _, hc, -, -, hpending, -⟩ := A.filling_code
  have hnone : Awaited env [] A.opened := fun k hk => by simp [hpending] at hk
  exact A.filling.awaited hc hnone

/-- The copies write what the registers of phis and fresh registers have in common. -/
theorem placing (hfresh : ∀ o, Fresh A.filled.vregs o → P o)
    (hphis : ∀ k ∈ A.filled.pendingPhis, PhiWritable env P A.filled k) :
    Placing env P { A.filled with pendingPhis := [] } A.copied A.copies := by
  obtain ⟨_, d, -, -, -, -, hd, -⟩ := A.filling_code
  obtain ⟨copies, h, -⟩ := resolvePendingPhis_placing hd.current hfresh hphis A.copying
  have heq : copies = A.copies :=
    funext fun mb => Machine.withCopies_inj ((h.insts mb).symm.trans (A.placed mb))
  exact heq ▸ h

theorem placing_any :
    Placing env (fun _ => True) { A.filled with pendingPhis := [] } A.copied A.copies :=
  A.placing (fun _ _ => trivial) (A.awaited.writable fun _ _ _ _ _ _ _ _ _ _ => trivial)

theorem copying_follows : Follows env { A.filled with pendingPhis := [] } A.copied :=
  A.placing_any.follows

/-- The finished function is the one before the copies, grown. -/
theorem copying_grown {d : Current} (hd : Settled env A.filled d) :
    ∃ c, Settled env A.copied c ∧ Grown { A.filled with pendingPhis := [] } A.copied d c ∧
      A.machine = { c.machine with isSealed := true } := by
  have hd' : Settled env { A.filled with pendingPhis := [] } d :=
    hd.replace hd.current rfl rfl rfl rfl fun _ _ hv => .inl hv
  obtain ⟨c, hc⟩ := hd'.later A.copying_follows
  obtain ⟨c', hc', hg⟩ := A.copying_follows.grown hd'.current
  obtain ⟨c'', hc'', hm⟩ := A.finished
  cases hc.current.symm.trans hc'
  cases hc.current.symm.trans hc''
  exact ⟨c, hc, hg, hm⟩

/-! ## The finished code -/

/-- The layout lists the blocks in the order in which they were filled. -/
theorem layout_eq : A.machine.layout = A.parts.map Part.id := by
  obtain ⟨_, d, -, -, -, -, hd, -, hlayout, -⟩ := A.filling_code
  obtain ⟨c, -, hg, hm⟩ := A.copying_grown hd
  rw [hm, ← hlayout]
  exact hg.layout

/-- No block is laid out twice. -/
theorem layout_nodup : A.machine.layout.Nodup := by
  obtain ⟨_, d, -, -, -, -, hd, -, -, hnodup, -⟩ := A.filling_code
  obtain ⟨c, -, hg, hm⟩ := A.copying_grown hd
  rw [hm]
  exact hg.layout ▸ hnodup

/-- A finished block is its segments with copies inserted. -/
theorem insts_of_part {p : Part} (hp : p ∈ A.parts) :
    ∃ blk, A.machine.blocks[p.id.index.toNat]? = some blk ∧
      blk.insts = withCopies (A.copies p.id) p.insts := by
  obtain ⟨_, d, -, -, -, -, hd, -, -, -, hparts⟩ := A.filling_code
  obtain ⟨c, hc, hg, hm⟩ := A.copying_grown hd
  obtain ⟨hlt, hinsts⟩ := hparts p hp
  have hget := Array.getElem?_eq_getElem (Nat.lt_of_lt_of_le hlt hg.blocks)
  rw [hm]
  refine ⟨_, hget, ?_⟩
  rw [← hinsts, ← A.placed, State.instsOf, hc.current, Option.bind_some, hget]
  rfl

theorem numbered : A.machine.Numbered := by
  obtain ⟨_, d, -, -, -, -, hd, -⟩ := A.filling_code
  obtain ⟨c, hc, -, hm⟩ := A.copying_grown hd
  exact hc.numbered.congr (by rw [hm]) (by rw [hm])

/-- The segments, one after the other, are tidy. -/
theorem threaded (hsmall : A.machine.operands.size ≤ 2 ^ 32) :
    Threaded env A.machine 0 A.segments A.filled.vregs := by
  obtain ⟨c, d, hc, hunfilled, -, -, hd, -⟩ := A.filling_code
  obtain ⟨e, -, hg, hm⟩ := A.copying_grown hd
  have hoperands : A.machine.operands = e.machine.operands := by rw [hm]
  have hzero : A.opened.vregs = 0 :=
    by rw [State.vregs_eq hc.current, hunfilled.nextVReg]; rfl
  have h := A.filling.threaded hc hd.current (hoperands ▸ hg.operands) hsmall
  rwa [hzero] at h

end Assembly

theorem function_of_lowerFunction {r : Option Machine.FuncId}
    (h : Runs (lowerFunction func) env s r s') :
    ∃ f, env.module.function func = .ok f := by
  simp only [lowerFunction, runs_bind, runs_sourceModule, runs_check] at h
  obtain ⟨_, _, ⟨rfl, rfl⟩, f, _, ⟨hf, rfl⟩, -⟩ := h
  exact ⟨f, hf⟩

/-- The stages of a lowering are those of an assembly. -/
theorem exists_assembly_of_stages {s1 s2 s3 : State} {c : Current}
    (hf : env.module.function func = .ok f)
    (hopening : Runs (beginFunction func) env s () s1)
    (hfilling : Runs (f.blocks.forM lowerBlock) env s1 () s2)
    (hcopying : Runs resolvePendingPhis env s2 () s3) (hc : s3.current = some c)
    (hout : s'.output.functions =
      s3.output.functions ++ [{ c.machine with isSealed := true }]) :
    ∃ A : Assembly env func s s', A.source = f ∧ A.filled = s2 ∧ A.copied = s3 ∧
      A.machine = { c.machine with isSealed := true } := by
  obtain ⟨c1, hc1, -, -, hpending, -, hout1⟩ := settled_of_beginFunction hopening
  obtain ⟨parts, hparts, hblocks⟩ := lowerBlocks_parts hc1 hfilling
  have hawaited : Awaited env (parts.flatMap Part.segments) s2 := by
    have hnone : Awaited env [] s1 := fun k hk => by simp [hpending] at hk
    exact hparts.awaited hc1 hnone
  obtain ⟨c2, hc2, hleads⟩ := hparts.leads hc1
  obtain ⟨copies, hplacing, -⟩ :=
    resolvePendingPhis_placing (P := fun _ => True) hc2.current
    (fun _ _ => trivial) (hawaited.writable fun _ _ _ _ _ _ _ _ _ _ => trivial) hcopying
  refine ⟨⟨f, s1, s2, s3, _, parts, copies, hf, hopening, hparts, hblocks, hcopying,
    hplacing.insts, ⟨c, hc, rfl⟩, ?_⟩, rfl, rfl, rfl, rfl⟩
  obtain ⟨_, _, hg⟩ := hplacing.follows.grown hc2.current
  rw [hout, hg.output, hleads.output, hout1]

/-- Every lowering that succeeds is an assembly. -/
theorem exists_assembly {id : Machine.FuncId}
    (h : Runs (lowerFunction func) env s (some id) s') :
    Nonempty (Assembly env func s s') := by
  obtain ⟨f, hf⟩ := function_of_lowerFunction h
  obtain ⟨-, s1, s2, s3, hopening, hfilling, hcopying, hclosing⟩ :=
    (runs_lowerFunction hf).mp h
  obtain ⟨c3, hc3, -, -, -, hclosed⟩ := runs_closeFunction.mp hclosing
  have hout : s'.output.functions =
      s3.output.functions ++ [{ c3.machine with isSealed := true }] := by
    rw [hclosed]
  obtain ⟨A, -⟩ := exists_assembly_of_stages hf hopening hfilling hcopying hc3 hout
  exact ⟨A⟩

end InstSelect.Lowering
