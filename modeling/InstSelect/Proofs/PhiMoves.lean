import InstSelect.Proofs.ControlFlow
import InstSelect.Proofs.FlowMeaning
import InstSelect.Proofs.ParallelMoves
import InstSelect.Proofs.RegisterDiscipline

/-!
# The moves of phis

What the copies of a finished function do. Each pair of a phi becomes one move, in the
block of the pair's predecessor: from the operand of the input to the register of the phi.
Registers of phis are all different, so two of these moves disturb each other exactly if
the test on operands says so, and the copies of a block are code that makes its moves at
once.
-/

namespace InstSelect.Machine

/-- A register belongs to one operand. -/
theorem Function.Numbered.id_unique {m : Function} (h : m.Numbered) {id id' : OperandId}
    {o o' : Operand} {r : VReg} (ho : m.operands[id.index.toNat]? = some o)
    (hform : o.form = .virt r) (ho' : m.operands[id'.index.toNat]? = some o')
    (hform' : o'.form = .virt r) :
    id = id' := by
  have hlt : r.index.toNat < m.nextVReg.toNat :=
    h.below o (Array.mem_of_getElem? ho) r (by simp [Operand.vregs, hform])
  have hr : (⟨.ofNat r.index.toNat⟩ : VReg) = r :=
    congrArg VReg.mk (UInt32.ofNat_toNat ..)
  have hunique :=
    (h.exists_unique hlt).unique ⟨o, ho, hr.symm ▸ hform⟩ ⟨o', ho', hr.symm ▸ hform'⟩
  exact congrArg OperandId.mk (UInt32.toNat_inj.mp hunique)

end InstSelect.Machine

namespace InstSelect.Lowering

open IR (ValueId InstId Inst)
open Machine (Storage Operand OperandId VReg Move ParallelCode)

variable {env : Env} {func : IR.FuncId} {s s' : State} {c : Current}
  {m : Machine.Function} {n n' : Nat} {xs : List Copy} {b d b' : IR.BlockId} {q : Inst}
  {x : Copy} {y : Move} {insts : List Machine.Inst}

/--
What holds of any two members of a list holds of those of a list that corresponds to it.
-/
theorem pairwise_of_forall₂ {α β : Type} {R : α → β → Prop} {S : α → α → Prop}
    {T : β → β → Prop} {xs : List α} {ys : List β} (h : List.Forall₂ R xs ys)
    (hxs : xs.Pairwise S)
    (hT : ∀ x ∈ xs, ∀ x' ∈ xs, ∀ y y', R x y → R x' y' → S x x' → T y y') :
    ys.Pairwise T := by
  induction h with
  | nil => exact .nil
  | @cons x y xs ys hxy hrest ih =>
    obtain ⟨hx, hxs⟩ := List.pairwise_cons.mp hxs
    refine List.pairwise_cons.mpr ⟨fun y' hy' => ?_, ih hxs fun x hx x' hx' =>
      hT x (List.mem_cons_of_mem _ hx) x' (List.mem_cons_of_mem _ hx')⟩
    obtain ⟨x', hx', hxy'⟩ := exists_left_of_forall₂ hrest y' hy'
    exact hT x List.mem_cons_self x' (List.mem_cons_of_mem _ hx') y y' hxy hxy'
      (hx x' hx')

/-! ## The code of copies -/

/-- The move that a copy makes. -/
structure Denotes (m : Machine.Function) (x : Copy) (y : Move) : Prop where
  dst : m.operands[x.dst.index.toNat]? = some ⟨.virt y.dst, y.storage⟩
  src : m.operands[x.src.index.toNat]? = some y.src

theorem Denotes.unique {y' : Move} (h : Denotes m x y) (h' : Denotes m x y') :
    y = y' := by
  obtain ⟨r, st, o⟩ := y
  obtain ⟨r', st', o'⟩ := y'
  cases h.dst.symm.trans h'.dst
  cases h.src.symm.trans h'.src
  rfl

/-- An instruction that makes a copy decodes to the move. -/
theorem Denotes.decodes (h : Denotes m x y) :
    m.Decodes [⟨y.src.copyOp, [x.dst, x.src]⟩] [y.code] :=
  .cons ⟨rfl, .cons h.dst (.cons h.src .nil)⟩ .nil

/-- Copies with different destinations that do not overlap can be made in order. -/
theorem free_of_overlapping (h : overlapping xs = false)
    (hnodup : (xs.map Copy.dst).Nodup) :
    xs.Pairwise fun x y => x.dst ≠ y.src := by
  refine (List.pairwise_map.mp hnodup).imp_of_mem fun {x y} hx hy hne heq => ?_
  have hself : y.src ≠ y.dst := fun hsrc => hne (heq.trans hsrc)
  have hread := List.any_eq_false.mp h y hy
  simp only [Bool.and_eq_true, decide_eq_true_eq, List.any_eq_true, not_and,
    not_exists] at hread
  exact hread hself x hx heq

section

variable (hc : s.current = some c) (hm : c.machine.operands.toList <+: m.operands.toList)
  (hsmall : m.operands.size ≤ 2 ^ 32)
include hc hm hsmall

theorem exists_virt {id : OperandId} {d : Operand}
    (hid : s.Stands id fun o => ∃ r, o.form = .virt r) (hd : s.Holds id d) :
    ∃ r, m.operands[id.index.toNat]? = some ⟨.virt r, d.storage⟩ := by
  obtain ⟨o, ho, r, hr⟩ := hid (.of_initial hc hm hsmall)
  obtain ⟨form, st⟩ := d
  cases hd.unique ho
  cases hr
  exact ⟨r, hd.finished hc hm⟩

/-- The instructions of copies to registers. -/
theorem Copies.moves (h : Copies s xs insts)
    (hdst : Writable (fun o => ∃ r, o.form = .virt r) s xs) :
    ∃ moves, List.Forall₂ (Denotes m) xs moves ∧
      m.Decodes insts (moves.map Move.code) := by
  induction h with
  | nil => exact ⟨[], .nil, .nil⟩
  | @cons x i xs insts hx _ ih =>
    obtain ⟨hhead, htail⟩ := List.forall_mem_cons.mp hdst
    obtain ⟨d, o, hd, ho, rfl⟩ := hx
    obtain ⟨moves, hmoves, hdecodes⟩ := ih htail
    obtain ⟨r, hr⟩ := exists_virt hc hm hsmall hhead hd
    have hy : Denotes m x ⟨r, d.storage, o⟩ := ⟨hr, ho.finished hc hm⟩
    exact ⟨_ :: moves, .cons hy hmoves, List.rel_append hy.decodes hdecodes⟩

/-- The instructions of copies to registers by way of temporaries. -/
theorem detours_moves {zs : List Detour} {firsts seconds : List Machine.Inst}
    (hstands : ∀ z ∈ zs, z.Stands s) (hfirst : Copies s (zs.map Detour.first) firsts)
    (hsecond : Copies s (zs.map Detour.second) seconds)
    (hdst : Writable (fun o => ∃ r, o.form = .virt r) s (zs.map Detour.copy)) :
    ∃ ys : List (Move × VReg),
    List.Forall₂ (Denotes m) (zs.map Detour.copy) (ys.map Prod.fst) ∧
      ys.map Prod.snd = zs.map Detour.register ∧
      m.Decodes firsts ((ys.map fun y => y.1.stage y.2).map Move.code) ∧
      m.Decodes seconds ((ys.map fun y => y.1.unstage y.2).map Move.code) := by
  induction zs generalizing firsts seconds with
  | nil =>
    cases hfirst
    cases hsecond
    exact ⟨[], .nil, rfl, .nil, .nil⟩
  | cons z zs ih =>
    obtain ⟨hhead, htail⟩ := List.forall_mem_cons.mp hdst
    obtain ⟨htemp, hstands⟩ := List.forall_mem_cons.mp hstands
    cases hfirst with
    | cons hx hfirst =>
    cases hsecond with
    | cons hy hsecond =>
    obtain ⟨t, o, ht, ho, rfl⟩ := hx
    obtain ⟨d, t', hd, ht', rfl⟩ := hy
    obtain ⟨ys, hys, hregs, hfirsts, hseconds⟩ := ih hstands hfirst hsecond htail
    -- The temporary has the class of the register that the copy is for.
    obtain ⟨_, htemp, d', hd', rfl⟩ := htemp (.of_initial hc hm hsmall)
    cases ht.unique htemp
    cases ht'.unique htemp
    cases hd.unique hd'
    obtain ⟨r, hr⟩ := exists_virt hc hm hsmall hhead hd
    have ht := htemp.finished hc hm
    have ho := ho.finished hc hm
    have hstage : Denotes m z.first ((Move.mk r d.storage o).stage z.register) := ⟨ht, ho⟩
    have hunstage : Denotes m z.second ((Move.mk r d.storage o).unstage z.register) :=
      ⟨hr, ht⟩
    exact ⟨(⟨r, d.storage, o⟩, z.register) :: ys, .cons ⟨hr, ho⟩ hys, congrArg _ hregs,
      List.rel_append hstage.decodes hfirsts, List.rel_append hunstage.decodes hseconds⟩

/-- The copies of one block make moves at once. -/
theorem Placed.moves (h : Placed s n xs insts) (hnumbered : m.Numbered)
    (hnodup : (xs.map Copy.dst).Nodup)
    (hdst : Writable (fun o => ∃ r, o.form = .virt r) s xs) :
    ∃ moves code, List.Forall₂ (Denotes m) xs moves ∧ m.Decodes insts code ∧
      ParallelCode n moves code := by
  cases h with
  | direct free copies =>
    obtain ⟨moves, hmoves, hdecodes⟩ := copies.moves hc hm hsmall hdst
    refine ⟨moves, _, hmoves, hdecodes, .direct ?_⟩
    refine pairwise_of_forall₂ hmoves (free_of_overlapping free hnodup) ?_
    intro x _ x' _ y y' hy hy' hne hform
    exact hne (hnumbered.id_unique hy.dst rfl hy'.src hform)
  | @staged zs _ _ fresh nodup stands first second =>
    obtain ⟨ys, hys, hregs, hfirsts, hseconds⟩ :=
      detours_moves hc hm hsmall stands first second hdst
    refine ⟨_, _, hys, List.rel_append hfirsts hseconds,
      .staged (fun y hy => ?_) (hregs ▸ nodup)⟩
    have hmem : y.2 ∈ zs.map Detour.register := hregs ▸ List.mem_map_of_mem hy
    obtain ⟨z, hz, heq⟩ := List.mem_map.mp hmem
    exact heq ▸ fresh z hz

end

/-! ## The registers of phis -/

/-- A segment is that of a phi, which was given a register. -/
def PhiAt (env : Env) (m : Machine.Function) (seg : Segment) (r : VReg) : Prop :=
  ∃ i dst o, env.module.inst seg.inst = .ok i ∧ i.opcode = .phi ∧
    seg.after.values.find? i.value = some dst ∧ m.operands[dst.index.toNat]? = some o ∧
    o.form = .virt r

namespace Threaded

variable {segs : List Segment} {seg seg' : Segment} {r : VReg}

/-- The registers of phis are among those that their segments are numbered with. -/
theorem phi_number (h : Threaded env m n segs n') (hseg : seg ∈ segs)
    (hr : PhiAt env m seg r) :
    n ≤ r.index.toNat ∧ r.index.toNat < n' := by
  induction h with
  | nil => cases hseg
  | @phi n n' seg' segs i dst q st inst opcode empty bound register number after
      rest ih =>
    rcases List.mem_cons.mp hseg with rfl | hseg
    · obtain ⟨j, dst', o, hj, -, hbound, ho, hform⟩ := hr
      cases inst.symm.trans hj
      cases bound.symm.trans hbound
      cases register.symm.trans ho
      cases hform
      have := rest.le
      omega
    · have := ih hseg
      omega
  | @code n k n' seg' segs i code inst opcode decodes tidy after rest ih =>
    have hle := tidy.le
    rcases List.mem_cons.mp hseg with rfl | hseg
    · obtain ⟨j, -, -, hj, hphi, -⟩ := hr
      cases inst.symm.trans hj
      exact absurd hphi opcode
    · have := ih hseg
      omega

/-- Different phis have different registers. -/
theorem phi_inj (h : Threaded env m n segs n') (hseg : seg ∈ segs) (hseg' : seg' ∈ segs)
    (hr : PhiAt env m seg r) (hr' : PhiAt env m seg' r) : seg = seg' := by
  induction h with
  | nil => cases hseg
  | @phi n n' head segs i dst q st inst opcode empty bound register number after
      rest ih =>
    have hhead : ∀ x ∈ segs, PhiAt env m x r → ¬ PhiAt env m head r := by
      intro x hx hxr hheadr
      have hlt := (rest.phi_number hx hxr).1
      have hhere :=
        (Threaded.phi inst opcode empty bound register number after (.nil _)).phi_number
        (List.mem_singleton.mpr rfl) hheadr
      omega
    rcases List.mem_cons.mp hseg with rfl | hin
    · rcases List.mem_cons.mp hseg' with rfl | hseg'
      · rfl
      · exact absurd hr (hhead seg' hseg' hr')
    · rcases List.mem_cons.mp hseg' with rfl | hseg'
      · exact absurd hr' (hhead seg hin hr)
      · exact ih hin hseg'
  | @code n k n' head segs i code inst opcode decodes tidy after rest ih =>
    have hhead : ¬ PhiAt env m head r := by
      rintro ⟨j, -, -, hj, hphi, -⟩
      cases inst.symm.trans hj
      exact opcode hphi
    rcases List.mem_cons.mp hseg with rfl | hseg
    · exact absurd hr hhead
    · rcases List.mem_cons.mp hseg' with rfl | hseg'
      · exact absurd hr' hhead
      · exact ih hseg hseg'

/-- The code of instructions does not write the registers of phis. -/
theorem phi_spared (h : Threaded env m n segs n') (hseg : seg ∈ segs)
    (hr : PhiAt env m seg r) :
    ∀ x ∈ segs, ∀ i ∈ x.insts, ¬ m.Writes i r := by
  induction h with
  | nil => cases hseg
  | @phi n n' head segs i dst q st inst opcode empty bound register number after
      rest ih =>
    refine List.forall_mem_cons.mpr ⟨by simp [empty], ?_⟩
    rcases List.mem_cons.mp hseg with rfl | hseg
    · refine rest.spares ?_
      have hhere :=
        (Threaded.phi inst opcode empty bound register number after (.nil _)).phi_number
        (List.mem_singleton.mpr rfl) hr
      exact hhere.2
    · exact ih hseg
  | @code n k n' head segs i code inst opcode decodes tidy after rest ih =>
    rcases List.mem_cons.mp hseg with rfl | hseg
    · obtain ⟨j, -, -, hj, hphi, -⟩ := hr
      cases inst.symm.trans hj
      exact absurd hphi opcode
    · refine List.forall_mem_cons.mpr ⟨fun y hy hwrites => ?_, ih hseg⟩
      obtain ⟨d, hd, hop, hds⟩ :=
        exists_code (Machine.Function.decode_eq_some.mp decodes) hy
      exact (tidy.bounded d hd).not_mentions (rest.phi_number hseg hr).1
        (hds.mentions (Machine.Function.mentions_of_writes hwrites))

end Threaded

/-! ## The phis that wait -/

/-- Whether an instruction is a phi. -/
def isPhi (m : IR.Module) (k : InstId) : Bool :=
  match m.inst k with
  | .ok i => i.opcode = .phi
  | .error _ => false

theorem Segments.pending {segs : List Segment} (h : Segments env s segs s')
    (hs : Settled env s c) :
    s'.pendingPhis =
      s.pendingPhis ++ (segs.map Segment.inst).filter (isPhi env.module) := by
  induction h generalizing c with
  | nil => simp
  | @cons s t s' k insts segs run gains rest ih =>
    obtain ⟨i, u, d, code, hi, hpath, hb, hd, hlowers⟩ := lowerInst_lowers hs run
    rw [ih hd, List.map_cons, List.filter_cons]
    cases hlowers with
    | phi opcode empty vregs pending number bound register =>
      have hphi : isPhi env.module k = true := by simp [isPhi, hi, opcode]
      rw [if_pos hphi, pending, List.append_assoc, List.singleton_append]
    | code opcode pending tidy leaves =>
      have hphi : isPhi env.module k = false := by simp [isPhi, hi, opcode]
      rw [hphi, pending]
      rfl

theorem Parts.pending {parts : List Part} (h : Parts env s parts s')
    (hs : Settled env s c) :
    s'.pendingPhis = s.pendingPhis ++
      ((parts.flatMap Part.segments).map Segment.inst).filter (isPhi env.module) := by
  induction h generalizing c with
  | nil => simp
  | cons enter direct block segments insts layout _ ih =>
    obtain ⟨d, hd, hsu, -⟩ := enter_block hs enter direct
    obtain ⟨e, he, -⟩ := segments.gains hd
    obtain ⟨e', he', hvw, -⟩ := leave_block he layout
    rw [ih he', hvw.pending, segments.pending hd, hsu.pending, List.flatMap_cons,
      List.map_append, List.filter_append, List.append_assoc]

/-! ## Whole functions -/

namespace Assembly

variable (A : Assembly env func s s')

/-- Finishing a function adds no operands. -/
theorem operands_eq (hc : A.copied.current = some c) :
    A.machine.operands = c.machine.operands := by
  obtain ⟨c', hc', hmachine⟩ := A.finished
  cases hc.symm.trans hc'
  rw [hmachine]

/-- A value is bound to an operand of the finished function. -/
def Located (v : ValueId) (o : Operand) : Prop :=
  ∃ id, A.copied.values.find? v = some id ∧ A.machine.operands[id.index.toNat]? = some o

variable {A}

theorem Located.unique {v : ValueId} {o o' : Operand} (h : A.Located v o)
    (h' : A.Located v o') : o = o' := by
  obtain ⟨id, hid, ho⟩ := h
  obtain ⟨id', hid', ho'⟩ := h'
  cases hid.symm.trans hid'
  exact Option.some.inj (ho.symm.trans ho')

variable (A)

theorem map_inst_segments : A.segments.map Segment.inst = env.module.order A.source := by
  rw [segments, List.map_flatMap, IR.Module.order, ← A.blocks, List.flatMap_map]
  refine List.flatMap_congr fun p hp => ?_
  obtain ⟨-, data, hdata, hsegs⟩ := A.bound_of_part hp
  rw [hsegs, IR.Module.instsOf_eq hdata]

theorem pendingPhis_eq :
    A.filled.pendingPhis = (env.module.order A.source).filter (isPhi env.module) := by
  obtain ⟨c, -, hc, -, -, hpending, -⟩ := A.filling_code
  rw [A.filling.pending hc, hpending, List.nil_append, ← A.map_inst_segments]
  rfl

/-- The phis of a function have segments, and wait for their copies. -/
theorem exists_phi (hb : b ∈ A.source.blocks) (hq : q ∈ env.module.phis b) :
    ∃ seg ∈ A.segments, env.module.inst seg.inst = .ok q ∧ q.opcode = .phi ∧
      seg.inst ∈ A.filled.pendingPhis := by
  obtain ⟨k, hk, hi, hphi⟩ := IR.Module.mem_phis.mp hq
  have horder : k ∈ env.module.order A.source := List.mem_flatMap.mpr ⟨b, hb, hk⟩
  have hmem := horder
  rw [← A.map_inst_segments] at hmem
  obtain ⟨seg, hseg, rfl⟩ := List.mem_map.mp hmem
  refine ⟨seg, hseg, hi, hphi, ?_⟩
  rw [A.pendingPhis_eq]
  exact List.mem_filter.mpr ⟨horder, by simp [isPhi, hi, hphi]⟩

/-- What waits for its copies is a phi of the function. -/
theorem mem_phis_of_pending {k : InstId} (hk : k ∈ A.filled.pendingPhis)
    (hi : env.module.inst k = .ok q) :
    ∃ b ∈ A.source.blocks, q ∈ env.module.phis b := by
  rw [A.pendingPhis_eq] at hk
  obtain ⟨hk, hphi⟩ := List.mem_filter.mp hk
  obtain ⟨b, hb, hk⟩ := List.mem_flatMap.mp hk
  have hop : q.opcode = .phi := by simpa [isPhi, hi] using hphi
  exact ⟨b, hb, IR.Module.mem_phis.mpr ⟨k, hk, hi, hop⟩⟩

section

variable (hsmall : A.machine.operands.size ≤ 2 ^ 32)
include hsmall

/--
A phi is bound to a register of the class of its type, which no code but the copies
writes.
-/
theorem phi_located {seg : Segment} (hseg : seg ∈ A.segments)
    (hi : env.module.inst seg.inst = .ok q) (hphi : q.opcode = .phi) :
    ∃ dst r st, A.copied.values.find? q.value = some dst ∧
      A.machine.operands[dst.index.toNat]? = some ⟨.virt r, st⟩ ∧
        storageOf q.ty = .ok st ∧
      PhiAt env A.machine seg r := by
  obtain ⟨p, hp, hseg⟩ := List.mem_flatMap.mp hseg
  obtain ⟨d, hmade, hprefix⟩ := A.made hp hseg
  obtain ⟨i, x, t, hi', hselect, hbind⟩ := runs_lowerInst hmade.run
  cases hi.symm.trans hi'
  simp only [selectInst, hphi] at hselect
  obtain ⟨rfl, u, hrun⟩ := none_map hselect
  obtain ⟨st, dst, t', hst, hnew, -, rfl⟩ := runs_lowerPhi hrun
  obtain ⟨r, -, -, -, hdst⟩ := newVReg_stands hnew
  obtain ⟨e, he, hleads⟩ := hmade.after
  have hbound : seg.after.values.find? q.value = some dst := by
    rw [hbind]
    exact Bindings.find?_insert_self _ _ _
  have hdst' : seg.after.Stands dst (· = ⟨.virt r, st⟩) := hdst.of_current (by rw [hbind])
  have hmachine := hleads.operands.trans hprefix
  obtain ⟨o, ho, rfl⟩ := hdst' (.of_initial he.current hmachine hsmall)
  have ho' := ho.finished he.current hmachine
  exact ⟨dst, r, st, A.copying_follows.values (hleads.values _ _ hbound), ho',
    storageOf_of_scalarStorage hst, q, dst, _, hi, hphi, hbound, ho', rfl⟩

/-- Phis that are bound to one register are one phi. -/
theorem phi_value_inj {q' : Inst} {r : VReg} {st st' : Storage}
    (hb : b ∈ A.source.blocks) (hq : q ∈ env.module.phis b) (hb' : b' ∈ A.source.blocks)
    (hq' : q' ∈ env.module.phis b') (hr : A.Located q.value ⟨.virt r, st⟩)
    (hr' : A.Located q'.value ⟨.virt r, st'⟩) : q = q' := by
  obtain ⟨seg, hseg, hi, hphi, -⟩ := A.exists_phi hb hq
  obtain ⟨seg', hseg', hi', hphi', -⟩ := A.exists_phi hb' hq'
  obtain ⟨dst, r1, st1, hv, ho, -, hat⟩ := A.phi_located hsmall hseg hi hphi
  obtain ⟨dst', r2, st2, hv', ho', -, hat'⟩ := A.phi_located hsmall hseg' hi' hphi'
  have hone : A.Located q.value ⟨.virt r1, st1⟩ := ⟨dst, hv, ho⟩
  have htwo : A.Located q'.value ⟨.virt r2, st2⟩ := ⟨dst', hv', ho'⟩
  cases hr.unique hone
  cases hr'.unique htwo
  cases (A.threaded hsmall).phi_inj hseg hseg' hat hat'
  exact Except.ok.inj (hi.symm.trans hi')

end

/-- Source blocks have machine blocks of their own. -/
theorem block_inj (hm : env.module.Linked) {mb : Machine.BlockId}
    (hb : A.copied.blocks.find? b = some mb) (hb' : A.copied.blocks.find? b' = some mb) :
    b = b' := by
  obtain ⟨c, bs, hmapped, hsource, -⟩ := A.mapped
  have hmem : ∀ b, A.copied.blocks.find? b = some mb →
      b ∈ A.source.blocks ∧ A.blockOf b = mb := by
    intro b hb
    obtain ⟨k, hk, -⟩ := (hmapped.bound b mb).mp hb
    refine ⟨(A.perm_blocks hm hmapped hsource).mem_iff.mp (List.mem_of_getElem? hk), ?_⟩
    rw [blockOf, hb]
    rfl
  exact A.blockOf_injective (hmem b hb).1 (hmem b' hb').1
    ((hmem b hb).2.trans (hmem b' hb').2.symm)

/-- The copies of a finished function. -/
theorem collected : ∃ groups : List (List Entry),
    List.Forall₂ (CollectsPhi env A.copied) A.filled.pendingPhis groups ∧
    ∀ mb, Placed A.copied A.filled.vregs ((groups.flatten.filter (·.1 = mb)).map Prod.snd)
    (A.copies mb) := by
  obtain ⟨_, d, -, -, -, -, hd, -⟩ := A.filling_code
  obtain ⟨copies, h, groups, hgroups, hplaced⟩ :=
    resolvePendingPhis_placing (P := fun _ => True) hd.current
    (fun _ _ => trivial) (A.awaited.writable fun _ _ _ _ _ _ _ _ _ _ => trivial) A.copying
  have heq : copies = A.copies :=
    funext fun mb => Machine.withCopies_inj ((h.insts mb).symm.trans (A.placed mb))
  exact ⟨groups, hgroups, heq ▸ hplaced⟩

theorem inputs_of_phiIncoming {i : Inst} {pairs : List (ValueId × ValueId)}
    (h : i.phiIncoming = .ok pairs) : i.inputs = pairs := by
  unfold IR.Inst.phiIncoming at h
  split at h
  · next hop hpairs =>
    cases h
    rw [IR.Inst.inputs, hpairs]
    rfl
  · exact absurd h violate_ne_ok

section

variable {groups : List (List Entry)}
  (hgroups : List.Forall₂ (CollectsPhi env A.copied) A.filled.pendingPhis groups)
include hgroups

/-- A pair of a phi has a copy. -/
theorem exists_entry {x : ValueId × ValueId} (hd : d ∈ A.source.blocks)
    (hq : q ∈ env.module.phis d) (hx : x ∈ q.inputs) :
    ∃ e ∈ groups.flatten, ∃ b, env.module.target? x.2 = some b ∧
      A.copied.blocks.find? b = some e.1 ∧
      A.copied.values.find? q.value = some e.2.dst ∧
        A.copied.values.find? x.1 = some e.2.src := by
  obtain ⟨seg, -, hi, -, hpending⟩ := A.exists_phi hd hq
  obtain ⟨entries, hentries, q', dst, pairs, hi', hv, hpairs, hforall⟩ :=
    exists_left_of_forall₂ hgroups.flip _ hpending
  cases hi.symm.trans hi'
  obtain rfl := inputs_of_phiIncoming hpairs
  obtain ⟨e, he, b, hb, hblock, rfl, hsrc⟩ := exists_left_of_forall₂ hforall.flip x hx
  exact ⟨e, List.mem_flatten.mpr ⟨entries, hentries, he⟩, b,
    IR.Module.target?_eq_some.mpr hb, hblock, hv, hsrc⟩

/-- The copies are those of the pairs of phis. -/
theorem mem_entries {e : Entry} :
    e ∈ groups.flatten ↔
      ∃ d ∈ A.source.blocks, ∃ q ∈ env.module.phis d, ∃ x ∈ q.inputs, ∃ b,
      env.module.target? x.2 = some b ∧ A.copied.blocks.find? b = some e.1 ∧
      A.copied.values.find? q.value = some e.2.dst ∧
        A.copied.values.find? x.1 = some e.2.src := by
  constructor
  · intro he
    obtain ⟨entries, hentries, he⟩ := List.mem_flatten.mp he
    obtain ⟨k, hk, q, dst, pairs, hi, hv, hpairs, hforall⟩ :=
      exists_left_of_forall₂ hgroups entries hentries
    obtain ⟨d, hd, hq⟩ := A.mem_phis_of_pending hk hi
    obtain rfl := inputs_of_phiIncoming hpairs
    obtain ⟨x, hx, b, hb, hblock, rfl, hsrc⟩ := exists_left_of_forall₂ hforall e he
    exact ⟨d, hd, q, hq, x, hx, b, IR.Module.target?_eq_some.mpr hb, hblock, hv, hsrc⟩
  · rintro ⟨d, hd, q, hq, x, hx, b, hb, hblock, hv, hsrc⟩
    obtain ⟨e', he', b', hb', hblock', hv', hsrc'⟩ := A.exists_entry hgroups hd hq hx
    cases hb.symm.trans hb'
    have heq : e' = e := by
      obtain ⟨mb, dst, src⟩ := e
      obtain ⟨mb', dst', src'⟩ := e'
      cases hblock.symm.trans hblock'
      cases hv.symm.trans hv'
      cases hsrc.symm.trans hsrc'
      rfl
    exact heq ▸ he'

/-- No block has two copies to one register. -/
theorem entries_apart (hm : env.module.Linked) (hsmall : A.machine.operands.size ≤ 2 ^ 32)
    (hdistinct : ∀ b ∈ A.source.blocks, ∀ q ∈ env.module.phis b,
      (q.inputs.map fun x => env.module.target? x.2).Nodup) :
    groups.flatten.Pairwise fun e e' => e.1 = e'.1 → e.2.dst ≠ e'.2.dst := by
  refine List.pairwise_flatten.mpr ⟨fun entries hentries => ?_, ?_⟩
  · obtain ⟨k, hk, q, dst, pairs, hi, -, hpairs, hforall⟩ :=
      exists_left_of_forall₂ hgroups entries hentries
    obtain ⟨d, hd, hq⟩ := A.mem_phis_of_pending hk hi
    obtain rfl := inputs_of_phiIncoming hpairs
    refine pairwise_of_forall₂ hforall (List.pairwise_map.mp (hdistinct d hd q hq)) ?_
    intro x _ x' _ e e' he he' hne hblock
    obtain ⟨b, hb, hfind, -⟩ := he
    obtain ⟨b', hb', hfind', -⟩ := he'
    cases A.block_inj hm (hblock ▸ hfind) hfind'
    exact absurd
      ((IR.Module.target?_eq_some.mpr hb).trans (IR.Module.target?_eq_some.mpr hb').symm)
      hne
  · have hnodup : A.filled.pendingPhis.Nodup := by
      rw [A.pendingPhis_eq]
      exact (hm.order_nodup A.function).filter _
    refine pairwise_of_forall₂ hgroups hnodup ?_
    intro k hk k' hk' entries entries' hentries hentries' hne e he e' he' _ hdst
    obtain ⟨q, dst, pairs, hi, hv, -, hforall⟩ := hentries
    obtain ⟨q', dst', pairs', hi', hv', -, hforall'⟩ := hentries'
    obtain ⟨-, -, -, -, -, rfl, -⟩ := exists_left_of_forall₂ hforall e he
    obtain ⟨-, -, -, -, -, rfl, -⟩ := exists_left_of_forall₂ hforall' e' he'
    obtain ⟨b, hb, hq⟩ := A.mem_phis_of_pending hk hi
    obtain ⟨b', hb', hq'⟩ := A.mem_phis_of_pending hk' hi'
    obtain ⟨seg, hseg, hiseg, hphi, -⟩ := A.exists_phi hb hq
    obtain ⟨dst, r, st, hvq, ho, -⟩ := A.phi_located hsmall hseg hiseg hphi
    cases hv.symm.trans hvq
    cases A.phi_value_inj hsmall hb hq hb' hq' ⟨_, hv, ho⟩ ⟨_, hv', hdst ▸ ho⟩
    have hvalue := (value_of_inst hm hi).symm.trans (value_of_inst hm hi')
    cases hvalue
    exact hne rfl

end

/-- Inputs of phis are bound. -/
theorem exists_located (hsmall : A.machine.operands.size ≤ 2 ^ 32)
    {x : ValueId × ValueId} (hd : d ∈ A.source.blocks) (hq : q ∈ env.module.phis d)
    (hx : x ∈ q.inputs) : ∃ o, A.Located x.1 o := by
  obtain ⟨groups, hgroups, -⟩ := A.collected
  obtain ⟨e, -, -, -, -, -, hsrc⟩ := A.exists_entry hgroups hd hq hx
  obtain ⟨_, c, -, -, -, -, hc, -⟩ := A.filling_code
  obtain ⟨c', hc', -⟩ := A.copying_grown hc
  have hm : c'.machine.operands.toList <+: A.machine.operands.toList :=
    A.operands_eq hc'.current ▸ List.prefix_refl _
  obtain ⟨o, ho, -⟩ := hc'.values x.1 _ hsrc (.of_initial hc'.current hm hsmall)
  exact ⟨o, _, hsrc, ho.finished hc'.current hm⟩

/-- A move in a block: of one input for that block to the register of its phi. -/
def Moves (b : IR.BlockId) (y : Move) : Prop :=
  ∃ d ∈ A.source.blocks, ∃ q ∈ env.module.phis d, ∃ x ∈ q.inputs,
    env.module.target? x.2 = some b ∧
    A.Located q.value ⟨.virt y.dst, y.storage⟩ ∧ A.Located x.1 y.src

/-- The copies of a block make its moves at once. -/
theorem moves_of_part (hm : env.module.Linked) (hsmall : A.machine.operands.size ≤ 2 ^ 32)
    (hdistinct : ∀ b ∈ A.source.blocks, ∀ q ∈ env.module.phis b,
      (q.inputs.map fun x => env.module.target? x.2).Nodup) {p : Part}
      (hp : p ∈ A.parts) :
    ∃ moves code, A.machine.Decodes (A.copies p.id) code ∧
      ParallelCode A.filled.vregs moves code ∧
      (moves.map Move.dst).Nodup ∧ ∀ y, y ∈ moves ↔ A.Moves p.block y := by
  obtain ⟨groups, hgroups, hplaced⟩ := A.collected
  obtain ⟨c, hc, -⟩ := A.finished
  have hoperands := A.operands_eq hc
  have hfind := (A.bound_of_part hp).1
  have hmem : ∀ x, x ∈ (groups.flatten.filter (·.1 = p.id)).map Prod.snd ↔
      (p.id, x) ∈ groups.flatten := by
    intro x
    simp [List.mem_map, List.mem_filter]
  have hnodup :
      (((groups.flatten.filter (·.1 = p.id)).map Prod.snd).map Copy.dst).Nodup := by
    refine List.pairwise_map.mpr (List.pairwise_map.mpr ?_)
    refine ((A.entries_apart hgroups hm hsmall hdistinct).filter _).imp_of_mem
      fun he he' hne => hne ?_
    exact (of_decide_eq_true (List.mem_filter.mp he).2).trans
      (of_decide_eq_true (List.mem_filter.mp he').2).symm
  have hdst : Writable (fun o => ∃ r, o.form = .virt r) A.copied
      ((groups.flatten.filter (·.1 = p.id)).map Prod.snd) := by
    intro x hx _
    obtain ⟨d, hd, q, hq, -, -, -, -, -, hv, -⟩ :=
      (A.mem_entries hgroups).mp ((hmem x).mp hx)
    obtain ⟨seg, hseg, hi, hphi, -⟩ := A.exists_phi hd hq
    obtain ⟨dst, r, st, hv', ho, -⟩ := A.phi_located hsmall hseg hi hphi
    cases hv.symm.trans hv'
    exact ⟨_, ⟨c, hc, hoperands ▸ ho⟩, r, rfl⟩
  obtain ⟨moves, code, hmoves, hdecodes, hcode⟩ := (hplaced p.id).moves hc
    (hoperands ▸ List.prefix_refl _) hsmall A.numbered hnodup hdst
  refine ⟨moves, code, hdecodes, hcode, ?_, fun y => ⟨fun hy => ?_, ?_⟩⟩
  · refine List.pairwise_map.mpr
      (pairwise_of_forall₂ hmoves (List.pairwise_map.mp hnodup) ?_)
    intro x _ x' _ y y' hy hy' hne heq
    exact hne (A.numbered.id_unique hy.dst rfl hy'.dst (congrArg _ heq.symm))
  · obtain ⟨x, hx, hxy⟩ := exists_left_of_forall₂ hmoves y hy
    obtain ⟨d, hd, q, hq, z, hz, b, hb, hblock, hv, hsrc⟩ :=
      (A.mem_entries hgroups).mp ((hmem x).mp hx)
    cases A.block_inj hm hblock hfind
    exact ⟨d, hd, q, hq, z, hz, hb, ⟨_, hv, hxy.dst⟩, ⟨_, hsrc, hxy.src⟩⟩
  · rintro ⟨d, hd, q, hq, z, hz, hb, ⟨dst, hv, ho⟩, ⟨src, hsrc, ho'⟩⟩
    have hentry : (p.id, ⟨dst, src⟩) ∈ groups.flatten :=
      (A.mem_entries hgroups).mpr ⟨d, hd, q, hq, z, hz, p.block, hb, hfind, hv, hsrc⟩
    obtain ⟨y', hy', hxy'⟩ := exists_left_of_forall₂ hmoves.flip _ ((hmem _).mpr hentry)
    have hxy : Denotes A.machine ⟨dst, src⟩ y := ⟨ho, ho'⟩
    exact Denotes.unique hxy hxy' ▸ hy'

end Assembly

end InstSelect.Lowering
