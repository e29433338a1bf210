import InstSelect.Proofs.PhiTotality

/-!
# Well-typed functions always lower

The blocks of a function are lowered in the order of its layout. What is known between two
blocks is collected in `Laying`: which instructions were lowered, and which blocks joined
the layout. When all are through, every phi finds the results and the blocks that its
copies need.
-/

namespace InstSelect.Lowering

open IR (InstId)
open Machine (PhysReg)

variable {J : Job} {s s' t : State} {c c' : Current} {n m : Nat} {done : List InstId}
  {laid : List IR.BlockId} {b : IR.BlockId} {data : IR.Block} {all : InstId → Prop}
  {mb : Machine.BlockId}

/-! ## Between two instructions -/

/--
The instructions in `done` were lowered, and the blocks in `laid` joined the layout.
-/
structure Laying (J : Job) (s : State) (c : Current) (done : List InstId)
    (laid : List IR.BlockId) :
    Prop where
  session : ∃ sts, Session J.env J.func J.f sts s c
  counted : c.machine.Counted
  lowered : Lowered J s done
  separate : Separate s
  layout : ∀ mb ∈ c.machine.layout, ∃ b ∈ laid, s.blocks.find? b = some mb
  entered : ∀ b ∈ laid, ∃ mb, s.blocks.find? b = some mb

theorem Laying.current (h : Laying J s c done laid) : s.current = some c := by
  obtain ⟨sts, hs⟩ := h.session
  exact hs.current

theorem Follows.size_le (h : Follows J.env s t) (hc : s.current = some c) :
    s.size ≤ t.size := by
  obtain ⟨d, hd, hg⟩ := h.grown hc
  have hoperands := hg.operands.length_le
  have hblocks := hg.blocks
  rw [State.size_eq hc, State.size_eq hd]
  simp only [Array.length_toList] at hoperands
  omega

/-- Blocks stay apart as long as there is room for them. -/
theorem Follows.separate (h : Follows J.env s t) (hc : Ready J s c)
    (hroom : t.size < 2 ^ 32) (hsep : Separate s) : Separate t := by
  induction h generalizing c with
  | refl => exact hsep
  | edit => exact hsep
  | @grow s t code hg =>
    obtain ⟨sts, hs⟩ := hc.session
    obtain ⟨d, hd, -⟩ := hg.grown hc.current
    have hsize := State.size_eq hd
    exact hg.separate hs hd (by omega) hsep
  | trans hf hf' ih ih' =>
    obtain ⟨d, hd⟩ := hc.later hf
    have hsize := hf'.size_le hd.current
    exact ih' hd hroom (ih hc (by omega) hsep)

/-- The layout does not change while an instruction is lowered. -/
theorem Laying.advance {done' : List InstId} (h : Laying J s c done laid)
    (hc : Ready J s c) (hc' : Ready J s' c') (ha : Advances J s s' n)
    (hroom : s.size + n < 2 ^ 32) (hl : Lowered J s' done') :
    Laying J s' c' done' laid ∧ ∀ b mb, s.blocks.find? b = some mb →
      s'.blocks.find? b = some mb := by
  obtain ⟨t, hf, hcurrent, hblocks⟩ := ha.follows
  obtain ⟨d, hd, hg⟩ := hf.grown hc.current
  cases (hcurrent.trans hd).symm.trans hc'.current
  have hsize : t.size = s'.size := by rw [State.size_eq hd, State.size_eq hc'.current]
  have hbound := ha.size
  have hkept : ∀ b mb, s.blocks.find? b = some mb → s'.blocks.find? b = some mb := by
    intro b mb hb
    rw [hblocks]
    exact hg.blockMap b mb hb
  refine ⟨⟨hc'.session, hc'.counted, hl, ?_, ?_, ?_⟩, hkept⟩
  · have hsep := hf.separate hc (by omega) h.separate
    unfold Separate at hsep ⊢
    rwa [hblocks]
  · intro mb hmb
    rw [hg.layout] at hmb
    obtain ⟨b, hb, hfind⟩ := h.layout mb hmb
    exact ⟨b, hb, hkept b mb hfind⟩
  · intro b hb
    obtain ⟨mb, hfind⟩ := h.entered b hb
    exact ⟨mb, hkept b mb hfind⟩

/-- Well-typed instructions lower one after the other. -/
theorem lowerInsts_total {ids : List InstId} (h : Laying J s c done laid)
    (hc : Ready J s c) (hnodup : (done ++ ids).Nodup)
    (htyped : ∀ before id after, ids = before ++ id :: after →
      ∃ i, J.env.module.inst id = .ok i ∧
      J.env.module.WellTyped J.func (· ∈ done ++ before) i J.f.sig.ret all)
    (hroom : s.size + 12 * J.env.module.weight ids < 2 ^ 32) :
    ∃ s' c', Runs (ids.forM lowerInst) J.env s () s' ∧ Ready J s' c' ∧
      Laying J s' c' (done ++ ids) laid ∧
        s'.size ≤ s.size + 12 * J.env.module.weight ids ∧
      ∀ b mb, s.blocks.find? b = some mb → s'.blocks.find? b = some mb := by
  induction ids generalizing s c done with
  | nil =>
    refine ⟨s, c, runs_pure.mpr ⟨rfl, rfl⟩, hc, ?_, Nat.le_add_right _ _,
      fun _ _ hb => hb⟩
    rwa [List.append_nil]
  | cons id ids ih =>
    obtain ⟨i, hi, ht⟩ := htyped [] id ids rfl
    rw [List.append_nil] at ht
    rw [IR.Module.weight_cons, IR.Module.arity_eq hi] at hroom ⊢
    have hnew : id ∉ done := fun hid =>
      (List.nodup_append.mp hnodup).2.2 id hid id List.mem_cons_self rfl
    obtain ⟨t, d, hrun, hd, ha, hl⟩ := lowerInst_total hc h.lowered hi hnew (by omega) ht
    obtain ⟨h', hkept⟩ := h.advance hc hd ha (by omega) hl
    have hsize := ha.size
    obtain ⟨s', c', hrun', hc', h'', hsize', hkept'⟩ := ih h' hd (by simpa using hnodup)
      (fun before id' after heq => by
        have := htyped (id :: before) id' after (by rw [heq]; rfl)
        simpa using this) (by omega)
    refine ⟨s', c', runs_bind.mpr ⟨(), t, hrun, hrun'⟩, hc', ?_, by omega,
      fun b mb hb => hkept' b mb (hkept b mb hb)⟩
    simpa using h''

/-! ## Blocks -/

/-- A step that keeps values and layout, and gives out at most one block. -/
theorem Laying.follow {d : Current} (h : Laying J s c done laid) (hf : Follows J.env s t)
    (hd : ∃ sts, Session J.env J.func J.f sts t d) (hcounted : d.machine.Counted)
    (hsep : Separate t) : Laying J t d done laid := by
  obtain ⟨sts, hs⟩ := hd
  obtain ⟨e, he, hg⟩ := hf.grown h.current
  cases hs.current.symm.trans he
  refine ⟨⟨sts, hs⟩, hcounted, h.lowered.later hf, hsep, fun mb hmb => ?_, fun b hb => ?_⟩
  · rw [hg.layout] at hmb
    obtain ⟨b, hb, hfind⟩ := h.layout mb hmb
    exact ⟨b, hb, hg.blockMap b mb hfind⟩
  · obtain ⟨mb, hfind⟩ := h.entered b hb
    exact ⟨mb, hg.blockMap b mb hfind⟩

/-- The machine block of an own block can be had before any block receives code. -/
theorem Laying.blockFor (h : Laying J s c done laid)
    (hb : J.env.module.block b = .ok data) (hown : data.func = J.func)
    (hroom : s.size + 1 < 2 ^ 32) :
    ∃ mb t d, Runs (blockFor b) J.env s mb t ∧ Laying J t d done laid ∧
      t.blocks.find? b = some mb ∧ t.size ≤ s.size + 1 := by
  obtain ⟨sts, hs⟩ := h.session
  cases hfind : s.blocks.find? b with
  | some mb =>
    exact ⟨mb, s, c, runs_blockFor.mpr (.inl ⟨hfind, rfl⟩), h, hfind, Nat.le_succ _⟩
  | none =>
    have hsource : c.source = data.func := hs.source.trans hown.symm
    have hgrow : Grow J.env s _ [] := .block h.current hfind hb hsource
    obtain ⟨d, hd⟩ := hs.grow hgrow
    have hsize := State.size_eq h.current
    have hpush : d.machine.blocks.size = c.machine.blocks.size + 1 ∧
        d.machine.operands = c.machine.operands ∧ d.machine.Counted := by
      cases hd.current
      exact ⟨Array.size_push .., rfl, h.counted.vregs, h.counted.slots⟩
    refine ⟨_, _, d,
      runs_blockFor.mpr (.inr ⟨c, data, hfind, hb, h.current, hsource, hs.isOpen,
        J.ample _ rfl, rfl, rfl⟩), h.follow (.grow hgrow) ⟨sts, hd⟩ hpush.2.2 ?_,
      Bindings.find?_insert_self _ _ _, ?_⟩
    · exact hgrow.separate hs hd.current (by omega) h.separate
    · rw [State.size_eq hd.current, hpush.1, hpush.2.1]
      omega

/-- Directing code to a block makes the function ready. -/
theorem Laying.setInsertionBlock (h : Laying J s c done laid)
    (hmb : s.blocks.find? b = some mb) :
    ∃ t d, Runs (setInsertionBlock mb) J.env s () t ∧ Ready J t d ∧
      Laying J t d done laid ∧
      t.blocks.find? b = some mb ∧ t.size = s.size := by
  obtain ⟨sts, hs⟩ := h.session
  let t : State := { s with current := s.current.map ({ · with block := some mb }) }
  have hcurrent : t.current = some { c with block := some mb } := by
    show s.current.map _ = _
    rw [hs.current]
    rfl
  have hsession : Session J.env J.func J.f sts t { c with block := some mb } := by
    refine hs.persists ⟨hcurrent, rfl, rfl, rfl, rfl, List.prefix_refl _,
      fun _ _ hb => hb⟩ (fun _ _ hv => .inl hv) hs.blocks ?_
    rintro _ ⟨⟩
    exact hs.blocks b mb hmb
  have hlowered : Lowered J t done :=
    h.lowered.of_holds rfl (List.Sublist.refl _) fun _ _ ho =>
      ho.congr hs.current hcurrent rfl
  refine ⟨t, _, runs_setInsertionBlock.mpr rfl, ⟨⟨sts, hsession⟩, ⟨mb, rfl⟩, h.counted⟩,
    ⟨⟨sts, hsession⟩, h.counted, hlowered, h.separate, h.layout, h.entered⟩, hmb, ?_⟩
  rw [State.size_eq hcurrent, State.size_eq hs.current]

/-- A block that was lowered joins the layout. -/
theorem Laying.appendBlock (h : Laying J s c done laid) (hc : Ready J s c)
    (hmb : s.blocks.find? b = some mb) (hnew : b ∉ laid) :
    ∃ t d, Runs (change (·.appendBlock mb)) J.env s () t ∧ Ready J t d ∧
      Laying J t d done (laid ++ [b]) ∧ t.size = s.size := by
  obtain ⟨sts, hs⟩ := h.session
  have hlt := hs.blocks b mb hmb
  have hout : mb ∉ c.machine.layout := by
    intro hmem
    obtain ⟨b', hb', hfind⟩ := h.layout mb hmem
    rw [h.separate b' b mb hfind hmb] at hb'
    exact hnew hb'
  have happend := Machine.Function.appendBlock_eq_ok.mpr
    ⟨hs.isOpen, ⟨_, Array.getElem?_eq_getElem hlt⟩, hout, J.ample _ rfl, rfl⟩
  have hsession : Session J.env J.func J.f sts
      (s.withMachine c { c.machine with layout := c.machine.layout ++ [mb] })
      { c with machine := { c.machine with layout := c.machine.layout ++ [mb] } } :=
    hs.persists ⟨rfl, rfl, rfl, rfl, rfl, List.prefix_refl _, fun _ _ hb => hb⟩
      (fun _ _ hv => .inl hv) hs.blocks hs.insertion
  have hlowered : Lowered J (s.withMachine c _) done :=
    h.lowered.of_holds rfl (List.Sublist.refl _) fun _ _ ho =>
      ho.congr hs.current hsession.current rfl
  have hcounted := h.counted
  refine ⟨_, _, runs_change.mpr ⟨c, _, hs.current, happend, rfl⟩,
    ⟨⟨sts, hsession⟩, hc.receives, hcounted.vregs, hcounted.slots⟩,
    ⟨⟨sts, hsession⟩, ⟨hcounted.vregs, hcounted.slots⟩, hlowered, h.separate, ?_, ?_⟩, ?_⟩
  · intro mb' hmb'
    rcases List.mem_append.mp hmb' with hold | hself
    · obtain ⟨b', hb', hfind⟩ := h.layout mb' hold
      exact ⟨b', List.mem_append_left _ hb', hfind⟩
    · cases List.mem_singleton.mp hself
      exact ⟨b, List.mem_append_right _ List.mem_cons_self, hmb⟩
  · intro b' hb'
    rcases List.mem_append.mp hb' with hold | hself
    · exact h.entered b' hold
    · cases List.mem_singleton.mp hself
      exact ⟨mb, hmb⟩
  · rw [State.size_eq hsession.current, State.size_eq hs.current]

/-- A block of well-typed instructions lowers. -/
theorem lowerBlock_total (h : Laying J s c done laid)
    (hb : J.env.module.block b = .ok data) (hown : data.func = J.func) (hnew : b ∉ laid)
    (hnodup : (done ++ data.insts).Nodup)
    (htyped : ∀ before id after, data.insts = before ++ id :: after →
      ∃ i, J.env.module.inst id = .ok i ∧
        J.env.module.WellTyped J.func (· ∈ done ++ before) i J.f.sig.ret all)
    (hroom : s.size + (1 + 12 * J.env.module.weight data.insts) < 2 ^ 32) :
    ∃ s' c', Runs (lowerBlock b) J.env s () s' ∧ Ready J s' c' ∧
      Laying J s' c' (done ++ data.insts) (laid ++ [b]) ∧
      s'.size ≤ s.size + (1 + 12 * J.env.module.weight data.insts) := by
  obtain ⟨mb, s1, c1, hrun1, h1, hmb1, hsize1⟩ := h.blockFor hb hown (by omega)
  obtain ⟨s2, c2, hrun2, hc2, h2, hmb2, hsize2⟩ := h1.setInsertionBlock hmb1
  obtain ⟨s3, c3, hrun3, hc3, h3, hsize3, hkept⟩ :=
    lowerInsts_total h2 hc2 hnodup htyped (by omega)
  obtain ⟨s', c', hrun4, hc', h', hsize4⟩ := h3.appendBlock hc3 (hkept b mb hmb2) hnew
  refine ⟨s', c', ?_, hc', h', by omega⟩
  simp only [lowerBlock, runs_bind, runs_sourceModule, runs_check]
  exact ⟨mb, s1, hrun1, (), s2, hrun2, _, s2, ⟨rfl, rfl⟩, data, s2, ⟨hb, rfl⟩, (), s3,
    hrun3, hrun4⟩

/-- The blocks of a well-typed function lower one after the other. -/
theorem lowerBlocks_total {rest : List IR.BlockId} (hblocks : J.f.blocks = laid ++ rest)
    (h : Laying J s c (laid.flatMap J.env.module.instsOf) laid)
    (htyped : ∀ before id after, J.env.module.order J.f = before ++ id :: after →
      ∃ i, J.env.module.inst id = .ok i ∧
        J.env.module.WellTyped J.func (· ∈ before) i J.f.sig.ret all)
    (hroom : s.size +
      (rest.length + 12 * J.env.module.weight (rest.flatMap J.env.module.instsOf)) <
      2 ^ 32) :
    ∃ s' c', Runs (rest.forM lowerBlock) J.env s () s' ∧
      Laying J s' c' (J.env.module.order J.f) J.f.blocks ∧ (rest ≠ [] → Ready J s' c') ∧
      s'.size ≤ s.size +
        (rest.length + 12 * J.env.module.weight (rest.flatMap J.env.module.instsOf)) := by
  induction rest generalizing s c laid with
  | nil =>
    rw [List.append_nil] at hblocks
    refine ⟨s, c, runs_pure.mpr ⟨rfl, rfl⟩, ?_,
      fun hne => absurd rfl hne, Nat.le_add_right _ _⟩
    rw [IR.Module.order, hblocks]
    exact h
  | cons b rest ih =>
    obtain ⟨data, hb, hown⟩ :=
      J.linked.block_of_mem J.function (b := b) (by rw [hblocks]; simp)
    have hinsts := IR.Module.instsOf_eq hb
    have horder : J.env.module.order J.f = laid.flatMap J.env.module.instsOf ++
        (data.insts ++ rest.flatMap J.env.module.instsOf) := by
      rw [IR.Module.order, hblocks, List.flatMap_append, List.flatMap_cons, hinsts]
    have hnodup := J.linked.order_nodup J.function
    rw [horder, ← List.append_assoc] at hnodup
    have hnew : b ∉ laid := by
      have hblocks_nodup :=
        (J.linked.functions _ _ (IR.Module.function_eq_ok.mp J.function)).nodup
      rw [hblocks] at hblocks_nodup
      exact fun hmem => (List.nodup_append.mp hblocks_nodup).2.2 b hmem b
        List.mem_cons_self rfl
    rw [List.flatMap_cons, hinsts, IR.Module.weight_append, List.length_cons] at hroom ⊢
    obtain ⟨t, d, hrun, hd, h', hsize⟩ :=
      lowerBlock_total h hb hown hnew hnodup.of_append_left
      (fun before id after heq => htyped (laid.flatMap J.env.module.instsOf ++ before) id
        (after ++ rest.flatMap J.env.module.instsOf) (by rw [horder, heq]; simp))
        (by omega)
    rw [← hinsts, ← List.flatMap_singleton J.env.module.instsOf b,
      ← List.flatMap_append] at h'
    obtain ⟨s', c', hrun', hl, hready, hsize'⟩ := ih (by rw [hblocks]; simp) h' (by omega)
    refine ⟨s', c', runs_bind.mpr ⟨(), t, hrun, hrun'⟩, hl, fun _ => ?_, by omega⟩
    cases rest with
    | nil =>
      obtain ⟨-, rfl⟩ := runs_pure.mp hrun'
      cases hl.current.symm.trans hd.current
      exact hd
    | cons => exact hready (by simp)

/-! ## Opening and closing -/

theorem scalarStorage_of_isScalar {ty : IR.Ty} (role : String) (h : ty.isScalar = true) :
    ∃ st, scalarStorage ty role = .ok st := by
  obtain ⟨st, hw, -⟩ := storage_of_isScalar h
  obtain ⟨st', hst', -⟩ := scalarStorage_of_width role hw
  exact ⟨st', hst'⟩

/-- Scalar parameters can be bound, one operand each. -/
theorem bindParams_total {alloc : Machine.Allocator} (halloc : alloc.Ample)
    {params : List IR.Ty} (regs : List PhysReg) {f : Machine.Function}
    (hopen : f.isSealed = false) (hparams : ∀ ty ∈ params, ty.isScalar = true) :
    ∃ ids operands, bindParams params regs f = .ok (ids, { f with operands }) ∧
      operands.size ≤ f.operands.size + params.length := by
  induction params generalizing regs f with
  | nil => exact ⟨[], f.operands, rfl, Nat.le_refl _⟩
  | cons ty params ih =>
    cases regs with
    | nil => exact ⟨[], f.operands, rfl, Nat.le_add_right _ _⟩
    | cons reg regs =>
      obtain ⟨hty, hrest⟩ := List.forall_mem_cons.mp hparams
      obtain ⟨st, hst⟩ := scalarStorage_of_isScalar "parameter" hty
      have hpush : f.physReg reg st = .ok (f.nextId, f.extend (.phys reg) st) :=
        Machine.Function.pushOperand_eq_ok.mpr ⟨hopen, halloc _ rfl, rfl, rfl⟩
      obtain ⟨ids, operands, hbind, hsize⟩ :=
        ih regs (f := f.extend (.phys reg) st) hopen hrest
      have hextend : (f.extend (.phys reg) st).operands.size = f.operands.size + 1 :=
        Array.size_push ..
      refine ⟨f.nextId :: ids, operands, ?_, ?_⟩
      · simp only [bindParams, bind_eq_ok, Prod.exists, pure_eq_ok]
        exact ⟨st, hst, _, _, hpush, ids, _, hbind, rfl⟩
      · rw [List.length_cons]
        omega

theorem mapM_storageOf_of_isScalar {tys : List IR.Ty}
    (h : ∀ ty ∈ tys, ty.isScalar = true) :
    ∃ sts, tys.mapM storageOf = .ok sts := by
  induction tys with
  | nil => exact ⟨[], rfl⟩
  | cons ty tys ih =>
    obtain ⟨hty, hrest⟩ := List.forall_mem_cons.mp h
    obtain ⟨st, -, -, hst, -⟩ := storage_of_isScalar hty
    obtain ⟨sts, hsts⟩ := ih hrest
    rw [List.mapM_cons]
    exact ⟨st :: sts, bind_eq_ok.mpr ⟨st, hst, bind_eq_ok.mpr ⟨sts, hsts, rfl⟩⟩⟩

/-- A function with a scalar signature can be opened. -/
theorem openFunction_total {alloc : Machine.Allocator} {f : IR.Function}
    (halloc : alloc.Ample) (hdef : f.isExternal = false) (hfew : f.sig.params.length ≤ 4)
    (hparams : ∀ ty ∈ f.sig.params, ty.isScalar = true)
    (hret : f.sig.ret = .void ∨ f.sig.ret.isScalar = true) :
    ∃ machine, openFunction .win64 f = .ok machine ∧ machine.operands.size ≤ 4 ∧
      machine.Counted := by
  have hstorage : ∃ st, scalarStorage f.sig.ret "return value" = .ok st := by
    rcases hret with hvoid | hscalar
    · rw [hvoid]
      exact ⟨.void, rfl⟩
    · exact scalarStorage_of_isScalar _ hscalar
  obtain ⟨st, hst⟩ := hstorage
  obtain ⟨argTypes, hargTypes⟩ := mapM_storageOf_of_isScalar hparams
  let header := Machine.Function.new f.name st argTypes ⟨f.sig.isVariadic, f.isExternal⟩
  obtain ⟨ids, operands, hbind, hsize⟩ :=
    bindParams_total halloc Abi.win64.argRegisters (f := header) rfl hparams
  have hsmall : operands.size ≤ 4 :=
    Nat.le_trans hsize (by simpa [header, Machine.Function.new])
  refine ⟨{ header with operands, args := ids }, ?_, hsmall, Nat.zero_le _, Nat.zero_le _⟩
  simp only [openFunction, headerOf, bind_eq_ok, pure_eq_ok, hdef, Bool.false_eq_true,
    if_false]
  refine ⟨header,
    ⟨st, storageOf_of_scalarStorage hst, argTypes, hargTypes, by rw [← hdef]⟩,
    st, hst, ?_⟩
  have hlimit : ¬ Abi.win64.argRegisters.length < f.sig.params.length :=
    Nat.not_lt.mpr hfew
  rw [if_neg hlimit]
  simp only [bind_eq_ok, Prod.exists, Machine.Function.setArgs, pure_eq_ok]
  exact ⟨ids, _, hbind, (), rfl, rfl⟩

/-! ## Whole functions -/

/-- Instructions of a function are well-typed at their places, and exist. -/
theorem Job.typed (J : Job) (h : J.env.module.WellTypedFunction J.func J.f) :
    ∀ before id after, J.env.module.order J.f = before ++ id :: after →
      ∃ i, J.env.module.inst id = .ok i ∧
        J.env.module.WellTyped J.func (· ∈ before) i J.f.sig.ret
        (· ∈ J.env.module.order J.f) := by
  intro before id after heq
  have hmem : id ∈ J.env.module.order J.f := by simp [heq]
  obtain ⟨b, -, hid⟩ := List.mem_flatMap.mp hmem
  obtain ⟨i, hi, -⟩ := J.linked.inst_of_mem hid
  exact ⟨i, hi, h.insts before after id i heq hi⟩

theorem Job.typedPhi (J : Job) (h : J.env.module.WellTypedFunction J.func J.f)
    {inst : InstId} (hinst : inst ∈ J.env.module.order J.f) : TypedPhi J inst := by
  intro i hi hop
  obtain ⟨before, after, heq⟩ := List.append_of_mem hinst
  exact (h.insts before after inst i heq hi).phi_inv hop

/-- A function with a scalar signature is opened with nothing lowered. -/
theorem Job.begin_total (J : Job) (hdef : J.f.isExternal = false)
    (h : J.env.module.WellTypedFunction J.func J.f) (s : State) :
    ∃ s' c, Runs (beginFunction J.func) J.env s () s' ∧ Laying J s' c [] [] ∧
      s'.size ≤ 4 := by
  obtain ⟨machine, hopen, hoperands, hcounted⟩ :=
    openFunction_total J.ample hdef h.few h.params h.ret
  obtain ⟨_, hopened⟩ := openFunction_opened hdef hopen
  have hbegin : Runs (beginFunction J.func) J.env s ()
      { s.reset with current := some ⟨J.func, machine, none⟩ } := by
    simp only [beginFunction, runs_bind, runs_modify, runs_sourceModule,
      runs_theAllocator, runs_theAbi, runs_check]
    exact ⟨(), _, rfl, _, _, ⟨rfl, rfl⟩, J.f, _, ⟨J.function, rfl⟩, _, _,
      ⟨rfl, rfl⟩, _, _, ⟨J.abi, rfl⟩, machine, _, ⟨hopen, rfl⟩, rfl⟩
  obtain ⟨sts, c, hsession⟩ := session_of_beginFunction J.abi J.function hdef hbegin
  cases hsession.current
  refine ⟨_, _, hbegin,
    ⟨⟨sts, hsession⟩, hcounted, ⟨?_, fun _ _ _ _ => rfl, List.Sublist.refl _, ?_⟩,
      ?_, ?_, ?_⟩, ?_⟩
  · exact fun inst hinst => by cases hinst
  · exact fun inst hinst => by cases hinst
  · exact fun b b' mb hb => by cases hb
  · rw [hopened.layout]
    exact fun mb hmb => by cases hmb
  · exact fun b hb => by cases hb
  · rw [State.size_eq rfl]
    show machine.operands.size + machine.blocks.size ≤ 4
    rw [hopened.blocks]
    exact hoperands

/-- The phis of a function that was laid out become copies. -/
theorem Job.phis_total (J : Job) (h : J.env.module.WellTypedFunction J.func J.f)
    (hl : Laying J s c (J.env.module.order J.f) J.f.blocks)
      (hready : J.f.blocks ≠ [] → Ready J s c)
    (hroom : s.size + J.env.module.weight (J.env.module.order J.f) < 2 ^ 32) :
    ∃ s' c', Runs resolvePendingPhis J.env s () s' ∧ s'.current = some c' ∧
      c'.machine.isSealed = false := by
  by_cases hblocks : J.f.blocks = []
  · have hpending := hl.lowered.pending
    rw [IR.Module.order, hblocks, List.flatMap_nil, List.sublist_nil] at hpending
    obtain ⟨sts, hs⟩ := hl.session
    refine ⟨{ s with pendingPhis := [] }, c, ?_, hs.current, hs.isOpen⟩
    simp only [resolvePendingPhis, runs_bind, runs_get, runs_modify]
    exact ⟨s, s, ⟨rfl, rfl⟩, (), _, rfl, [], _,
      by rw [hpending]; exact runs_pure.mpr ⟨rfl, rfl⟩, runs_pure.mpr ⟨rfl, rfl⟩⟩
  · obtain ⟨s', c', hrun, hc'⟩ :=
      resolvePendingPhis_total (hready hblocks) ⟨hl.lowered, hl.entered⟩
      (fun inst hinst => J.typedPhi h (hl.lowered.pending.subset hinst)) hroom
    exact ⟨s', c', hrun, hc'.current, hc'.isOpen⟩

/--
A well-typed function of a built module always lowers, whatever was lowered before it.
Counters of operands, blocks and registers are 32-bit, so the function must not be too
large for them; and there must be memory for it.
-/
theorem wellTyped_lowers {env : Env} {func : IR.FuncId} {f : IR.Function}
    (hbuilt : IR.Built env.module) (hvalues : env.module.values.size ≤ 2 ^ 32)
    (habi : env.abi = .win64) (hmemory : env.allocator.Ample)
    (hfunc : env.module.function func = .ok f) (hdef : f.isExternal = false)
    (hname : Abi.win64.isIntrinsic f.name = false)
    (htyped : env.module.WellTypedFunction func f) (hsmall : env.module.count f < 2 ^ 28)
    (s : State) :
    ∃ id s', Runs (lowerFunction func) env s (some id) s' ∧
      s'.functions.find? func = some id := by
  let J : Job := ⟨env, func, f, habi, hmemory, hbuilt.linked hvalues, hfunc⟩
  have hcount : f.blocks.length + env.module.weight (env.module.order f) < 2 ^ 28 :=
    hsmall
  obtain ⟨s₁, c₁, hbegin, h₁, hsize₁⟩ := J.begin_total hdef htyped s
  have hroom₁ : s₁.size +
      (f.blocks.length + 12 * env.module.weight (env.module.order f)) < 2 ^ 32 := by
    omega
  obtain ⟨s₂, c₂, hlower, h₂, hready, hsize₂⟩ :=
    lowerBlocks_total (show J.f.blocks = [] ++ f.blocks from rfl) h₁
      (J.typed htyped) hroom₁
  have hroom₂ : s₂.size + env.module.weight (env.module.order f) < 2 ^ 32 := by
    have : s₂.size ≤
      s₁.size + (f.blocks.length + 12 * env.module.weight (env.module.order f)) := hsize₂
    omega
  obtain ⟨s₃, c₃, hphis, hc₃, hopen₃⟩ := J.phis_total htyped h₂ hready hroom₂
  have hclose : Runs (closeFunction func) env s₃ _ _ :=
    runs_closeFunction.mpr ⟨c₃, hc₃, hopen₃, hmemory _ rfl, rfl, rfl⟩
  exact ⟨_, _, (runs_lowerFunction hfunc).mpr ⟨habi ▸ hname, s₁, s₂, s₃, hbegin, hlower,
    hphis, hclose⟩, Bindings.find?_insert_self _ _ _⟩

/-- A loop that counts up from the quotient of an argument by itself. -/
def countingLoop : IR.Module where
  name := "m"
  values := #[⟨.ptr (.function [.int .w32] (.int .w32) false), .function ⟨0⟩⟩,
    ⟨.int .w32, .argument ⟨0⟩ 0⟩, ⟨.void, .block ⟨0⟩⟩, ⟨.void, .block ⟨1⟩⟩,
    ⟨.void, .block ⟨2⟩⟩,
    ⟨.int .w32, .constant (.int 1)⟩, ⟨.int .w32, .instruction ⟨0⟩⟩,
    ⟨.void, .instruction ⟨1⟩⟩,
    ⟨.int .w32, .instruction ⟨2⟩⟩, ⟨.int .w32, .instruction ⟨3⟩⟩,
    ⟨.bool, .instruction ⟨4⟩⟩, ⟨.void, .instruction ⟨5⟩⟩, ⟨.void, .instruction ⟨6⟩⟩]
  insts := #[⟨.div, [⟨1⟩, ⟨1⟩], .int .w32, ⟨0⟩, ⟨6⟩⟩, ⟨.br, [⟨3⟩], .void, ⟨0⟩, ⟨7⟩⟩,
    ⟨.phi, [⟨6⟩, ⟨2⟩, ⟨9⟩, ⟨3⟩], .int .w32, ⟨1⟩, ⟨8⟩⟩,
    ⟨.add, [⟨8⟩, ⟨5⟩], .int .w32, ⟨1⟩, ⟨9⟩⟩,
    ⟨.cmp .lt, [⟨9⟩, ⟨1⟩], .bool, ⟨1⟩, ⟨10⟩⟩,
    ⟨.condBr, [⟨10⟩, ⟨3⟩, ⟨4⟩], .void, ⟨1⟩, ⟨11⟩⟩, ⟨.ret, [⟨8⟩], .void, ⟨2⟩, ⟨12⟩⟩]
  blocks := #[⟨⟨0⟩, none, [⟨0⟩, ⟨1⟩], ⟨2⟩⟩, ⟨⟨0⟩, none, [⟨2⟩, ⟨3⟩, ⟨4⟩, ⟨5⟩], ⟨3⟩⟩,
    ⟨⟨0⟩, none, [⟨6⟩], ⟨4⟩⟩]
  functions :=
    #[⟨"f", ⟨[.int .w32], .int .w32, false⟩, [⟨1⟩], [⟨0⟩, ⟨1⟩, ⟨2⟩], false, ⟨0⟩⟩]
  globals := #[]

theorem built_countingLoop : IR.Built countingLoop := by
  have h := (IR.Built.empty "m").addFunction "f" ⟨[.int .w32], .int .w32, false⟩ false
  have h := h.block ⟨0⟩ none rfl
  have h := h.block ⟨0⟩ none rfl
  have h := h.block ⟨0⟩ none rfl
  have h := h.constant (.int .w32) (.int 1)
  have h := h.inst ⟨0⟩ .div [⟨1⟩, ⟨1⟩] (.int .w32) rfl
  have h := h.inst ⟨0⟩ .br [⟨3⟩] .void rfl
  have h := h.inst ⟨1⟩ .phi [⟨6⟩, ⟨2⟩] (.int .w32) rfl
  have h := h.inst ⟨1⟩ .add [⟨8⟩, ⟨5⟩] (.int .w32) rfl
  have h := h.inst ⟨1⟩ (.cmp .lt) [⟨9⟩, ⟨1⟩] .bool rfl
  have h := h.inst ⟨1⟩ .condBr [⟨10⟩, ⟨3⟩, ⟨4⟩] .void rfl
  have h := h.inst ⟨2⟩ .ret [⟨8⟩] .void rfl
  have h := h.incoming ⟨8⟩ ⟨9⟩ ⟨1⟩ rfl
  exact h

/-- The function of the loop. -/
def countingFunction : IR.Function :=
  ⟨"f", ⟨[.int .w32], .int .w32, false⟩, [⟨1⟩], [⟨0⟩, ⟨1⟩, ⟨2⟩], false, ⟨0⟩⟩

theorem wellTyped_countingLoop : countingLoop.WellTypedFunction ⟨0⟩ countingFunction := by
  refine ⟨by decide, by decide, .inr rfl, fun before after id i heq hi => ?_⟩
  have horder : countingLoop.order countingFunction =
    [⟨0⟩, ⟨1⟩, ⟨2⟩, ⟨3⟩, ⟨4⟩, ⟨5⟩, ⟨6⟩] := rfl
  rw [horder] at heq ⊢
  have harg : ∀ done, countingLoop.Usable ⟨0⟩ done (.int .w32) ⟨1⟩ :=
    fun _ => .argument 0 rfl
  have hphi : ∀ done : InstId → Prop, done ⟨2⟩ →
      countingLoop.Usable ⟨0⟩ done (.int .w32) ⟨8⟩ :=
    fun _ hdone => .result ⟨2⟩ rfl hdone
  rcases before with
    _ | ⟨x0, _ | ⟨x1, _ | ⟨x2, _ | ⟨x3, _ | ⟨x4, _ | ⟨x5, _ | ⟨x6, before⟩⟩⟩⟩⟩⟩⟩
  · cases heq
    cases hi
    exact .computes (.arithmetic rfl rfl rfl (harg _) (harg _))
  · cases heq
    cases hi
    exact .transfers (.br rfl rfl rfl ⟨_, _, _, rfl, rfl, rfl⟩)
  · cases heq
    cases hi
    refine .phi rfl rfl rfl fun p hp => ?_
    rcases List.mem_cons.mp hp with rfl | hp
    · exact ⟨.result ⟨0⟩ rfl (by decide), _, _, _, rfl, rfl, rfl⟩
    · cases List.mem_singleton.mp hp
      exact ⟨.result ⟨3⟩ rfl (by decide), _, _, _, rfl, rfl, rfl⟩
  · cases heq
    cases hi
    exact .computes (.arithmetic rfl rfl rfl (hphi _ (by decide)) (.constant _ rfl rfl))
  · cases heq
    cases hi
    exact .computes (.compare rfl rfl rfl rfl (.result ⟨3⟩ rfl (by decide)) (harg _))
  · cases heq
    cases hi
    exact .transfers (.condBr rfl rfl rfl rfl (.result ⟨4⟩ rfl (by decide))
      ⟨_, _, _, rfl, rfl, rfl⟩ ⟨_, _, _, rfl, rfl, rfl⟩)
  · cases heq
    cases hi
    exact .transfers (.ret rfl rfl (.value rfl (hphi _ (by decide))))
  · simp at heq

/-- The phi of this loop uses a result that comes after it. -/
theorem countingLoop_lowers :
    IR.Built countingLoop ∧ countingLoop.WellTypedFunction ⟨0⟩ countingFunction ∧
      ∃ id s', Runs (lowerFunction ⟨0⟩) ⟨countingLoop, .win64⟩ (.initial "m")
      (some id) s' ∧
        s'.functions.find? ⟨0⟩ = some id :=
  ⟨built_countingLoop, wellTyped_countingLoop,
    wellTyped_lowers built_countingLoop (by decide) rfl
    Machine.Allocator.host_ample rfl rfl (by decide +kernel) wellTyped_countingLoop
    (by decide) (.initial "m")⟩

end InstSelect.Lowering
