import InstSelect.Proofs.TidySelection
import InstSelect.Proofs.PhiCopies

/-!
# The code of a function, instruction by instruction

Lowering a function goes through its blocks, and through the instructions of each, in
order. The code that one instruction was lowered to is a `Segment`, and a `Part` lists the
segments of one block. A machine block receives code only while its source block is
lowered, so before the copies of the phis are placed it is the concatenation of its
segments. `Threaded` says what the discipline of registers makes of the segments of a
whole function.
-/

namespace InstSelect.Lowering

open IR (InstId Inst)
open Machine (Storage Operand OperandId VReg Code Tidy)

variable {env : Env} {s s' t u : State} {c c' d : Current} {id : OperandId}
  {P : Operand → Prop} {i : Inst} {k : InstId} {w : Unit} {o : Operand}

/-! ## Later states of one lowering -/

/-- What an id stands for does not change when operands are added. -/
theorem State.Stands.of_operands (h : s.Stands id P) (hc : s.current = some c)
    (hc' : s'.current = some c')
    (hoperands : c.machine.operands.toList <+: c'.machine.operands.toList) :
    s'.Stands id P := by
  intro hsmall
  have hle : c.machine.operands.size ≤ c'.machine.operands.size := by
    simpa using hoperands.length_le
  obtain ⟨o, ⟨d, hd, ho⟩, hp⟩ := h (by
    intro d hd
    cases hc.symm.trans hd
    exact Nat.le_trans hle (hsmall c' hc'))
  cases hc.symm.trans hd
  exact ⟨o, ⟨c', hc', Machine.Function.getElem?_of_prefix hoperands ho⟩, hp⟩

/-- What only grows while a function is lowered. -/
structure Leads (s s' : State) (c c' : Current) : Prop where
  source : c'.source = c.source
  operands : c.machine.operands.toList <+: c'.machine.operands.toList
  vregs : c.machine.nextVReg.toNat ≤ c'.machine.nextVReg.toNat
  room : c.machine.blocks.size ≤ c'.machine.blocks.size
  output : s'.output = s.output
  values : ∀ v id, s.values.find? v = some id → s'.values.find? v = some id
  blocks : ∀ b id, s.blocks.find? b = some id → s'.blocks.find? b = some id

namespace Leads

theorem refl (s : State) (c : Current) : Leads s s c c :=
  ⟨rfl, List.prefix_refl _, Nat.le_refl _, Nat.le_refl _, rfl, fun _ _ h => h,
    fun _ _ h => h⟩

theorem trans (h : Leads s t c d) (h' : Leads t s' d c') : Leads s s' c c' where
  source := h'.source.trans h.source
  operands := h.operands.trans h'.operands
  vregs := Nat.le_trans h.vregs h'.vregs
  room := Nat.le_trans h.room h'.room
  output := h'.output.trans h.output
  values := fun v id hv => h'.values v id (h.values v id hv)
  blocks := fun b id hb => h'.blocks b id (h.blocks b id hb)

theorem of_grown (h : Grown s s' c c') : Leads s s' c c' :=
  ⟨h.source, h.operands, h.vregs, h.blocks, h.output, h.values, h.blockMap⟩

/-- What an id stands for, it stands for later on. -/
theorem stands (h : Leads s s' c c') (hc : s.current = some c)
    (hc' : s'.current = some c') (hid : s.Stands id P) : s'.Stands id P :=
  hid.of_operands hc hc' h.operands

end Leads

/-- Operands, bindings and blocks decide whether a state is settled. -/
theorem Settled.replace (h : Settled env s c) (hc' : s'.current = some c')
    (hoperands : c'.machine.operands = c.machine.operands)
    (hnext : c'.machine.nextVReg = c.machine.nextVReg)
    (hargs : c'.machine.args = c.machine.args) (hblocks : s'.blocks = s.blocks)
    (hvalues : ∀ v id, s'.values.find? v = some id →
      s.values.find? v = some id ∨ s.Stands id fun o => ∀ mb, o.form ≠ .label mb) :
    Settled env s' c' := by
  have hholds : ∀ {id o}, s.Holds id o → s'.Holds id o := by
    rintro id o ⟨d, hd, ho⟩
    cases h.current.symm.trans hd
    exact ⟨c', hc', hoperands ▸ ho⟩
  have hsmall : s'.Small → s.Small := by
    intro hs d hd
    cases h.current.symm.trans hd
    exact hoperands ▸ hs c' hc'
  refine ⟨hc', h.numbered.congr hoperands hnext, fun id hid => ?_, fun v id hv hs => ?_⟩
  · obtain ⟨r, st, ho⟩ := h.args id (hargs ▸ hid)
    exact ⟨r, st, hholds ho⟩
  · rcases hvalues v id hv with hold | hnew
    · obtain ⟨o, ho, hlabel⟩ := h.values v id hold (hsmall hs)
      exact ⟨o, hholds ho, fun mb hform => hblocks ▸ hlabel mb hform⟩
    · obtain ⟨o, ho, hother⟩ := hnew (hsmall hs)
      exact ⟨o, hholds ho, fun mb hform => absurd hform (hother mb)⟩

/-! ## One instruction -/

/--
What lowering an instruction does: a phi only gets a register, any other one tidy code.
-/
inductive Lowers (k : InstId) (i : Inst) (s s' : State) (code : List Code) : Prop
  | phi {dst : OperandId} {r : VReg} (opcode : i.opcode = .phi) (empty : code = [])
      (vregs : s'.vregs = s.vregs + 1) (pending : s'.pendingPhis = s.pendingPhis ++ [k])
      (number : r.index.toNat = s.vregs) (bound : s'.values.find? i.value = some dst)
      (register : s'.Stands dst (·.form = .virt r))
  | code (opcode : i.opcode ≠ .phi) (pending : s'.pendingPhis = s.pendingPhis)
      (tidy : s'.Small → Tidy s.vregs s.vregs code s'.vregs)
      (leaves : Leaves s' i (code.filter (·.op.isTerminator)))

/-- States that differ in bindings only, or in phis that wait. -/
theorem State.Holds.of_current (h : s.Holds id o) (hc : s'.current = s.current) :
    s'.Holds id o := by
  obtain ⟨c, hcur, ho⟩ := h
  exact ⟨c, hc.trans hcur, ho⟩

theorem State.Stands.of_current (h : s.Stands id P) (hc : s'.current = s.current) :
    s'.Stands id P := by
  intro hsmall
  obtain ⟨o, ho, hp⟩ := h fun c hcur => hsmall c (hc.trans hcur)
  exact ⟨o, ho.of_current hc, hp⟩

theorem State.vregs_of_current (hc : s'.current = s.current) : s'.vregs = s.vregs := by
  rw [State.vregs, State.vregs, hc]

theorem Leaves.mono {ts : List Code} (h : Leaves s i ts) (hc : s'.current = s.current)
    (hvalues : ∀ v id, s.values.find? v = some id → s'.values.find? v = some id) :
    Leaves s' i ts := by
  cases h with
  | br opcode operands bound target =>
    exact .br opcode operands (hvalues _ _ bound) (target.of_current hc)
  | condBr opcode operands ifTrue onTrue ifFalse onFalse =>
    exact .condBr opcode operands (hvalues _ _ ifTrue) (onTrue.of_current hc)
      (hvalues _ _ ifFalse) (onFalse.of_current hc)
  | ret opcode => exact .ret opcode
  | stays opcode => exact .stays opcode

/-- The state after an instruction, from the state after its code. -/
theorem Settled.binds (h : Settled env t c) (hb : Binds k i t s')
    (hresult : ∀ id, s'.values.find? i.value = some id →
      t.values.find? i.value = some id ∨
      t.Stands id fun o => ∀ mb, o.form ≠ .label mb) : Settled env s' c := by
  refine h.replace (hb.current.trans h.current) rfl rfl rfl (by cases hb <;> rfl)
    fun v id hv => ?_
  by_cases hvalue : v = i.value
  · subst hvalue
    exact hresult id hv
  · have hne : ∀ x, (t.values.insert i.value x).find? v = some id →
        t.values.find? v = some id := by
      intro x hx
      rwa [Bindings.find?_insert, if_neg (Ne.symm hvalue)] at hx
    cases hb with
    | nothing => exact .inl hv
    | result x unbound => exact .inl (hne x hv)
    | phi x unbound isPhi => exact .inl (hne x hv)

theorem Binds.leads (h : Binds k i t s') (c : Current) : Leads t s' c c := by
  cases h with
  | nothing => exact .refl _ c
  | result o unbound | phi o unbound isPhi =>
    exact { Leads.refl t c with
      output := rfl, values := fun _ _ hv => find?_insert_of_unbound unbound hv }

/-- What was lowered by a path and a binding leads on. -/
theorem leads_of_binds {code : List Code} (hc : s.current = some c)
    (hpath : Path env s t code)
    (hb : Binds k i t s') : ∃ c', s'.current = some c' ∧ Grown s t c c' ∧
      Leads s s' c c' := by
  obtain ⟨c', hc', hg⟩ := hpath.grown hc
  exact ⟨c', hb.current.trans hc', hg, (Leads.of_grown hg).trans (hb.leads c')⟩

theorem lowerPhi_lowers (hs : Settled env s c) (hphi : i.opcode = .phi)
    (h : Runs (lowerPhi k i) env s w s') :
    ∃ t c', Path env s t [] ∧ Binds k i t s' ∧ Settled env s' c' ∧
      Lowers k i s s' [] := by
  obtain ⟨st, dst, t, -, hnew, hunbound, rfl⟩ := runs_lowerPhi h
  obtain ⟨r, hr, hvregs, hpath, hdst⟩ := newVReg_stands hnew
  obtain ⟨d, hd⟩ := hs.later (.of_path hpath)
  obtain ⟨_, _, hg⟩ := hpath.grown hs.current
  have hb : Binds k i t { t with
      values := t.values.insert i.value dst, pendingPhis := t.pendingPhis ++ [k] } :=
    .phi dst hunbound hphi
  refine ⟨t, d, hpath, hb, hd.binds hb fun id hid => ?_, .phi hphi rfl ?_ ?_ hr
    (Bindings.find?_insert_self _ _ _) ((hdst.imp fun o ho => by rw [ho]).of_current rfl)⟩
  · cases (Bindings.find?_insert_self t.values i.value dst).symm.trans hid
    refine .inr (hdst.imp ?_)
    rintro o rfl mb hform
    cases hform
  · exact (State.vregs_of_current rfl).trans hvregs
  · show t.pendingPhis ++ [k] = s.pendingPhis ++ [k]
    rw [hg.pending]

/-- Lowering any instruction, for every calling convention. -/
theorem lowerInst_lowers (hs : Settled env s c) (h : Runs (lowerInst k) env s w s') :
    ∃ i t c' code, env.module.inst k = .ok i ∧ Path env s t code ∧ Binds k i t s' ∧
      Settled env s' c' ∧ Lowers k i s s' code := by
  obtain ⟨i, r, t, hi, hselect, hbind⟩ := runs_lowerInst h
  by_cases hphi : i.opcode = .phi
  · simp only [selectInst, hphi] at hselect
    obtain ⟨rfl, v, hrun⟩ := none_map hselect
    subst hbind
    obtain ⟨t', c', hpath, hb, hs', hlowers⟩ := lowerPhi_lowers hs hphi hrun
    exact ⟨i, t', c', [], hi, hpath, hb, hs', hlowers⟩
  · have hu : Underway env s.vregs s := ⟨⟨c, hs⟩, Nat.le_refl _⟩
    obtain ⟨ts, htidily, hleaves, hresult⟩ := selectInst_tidily hphi hu hselect
    obtain ⟨d, hd⟩ := (htidily.underway hu).settled
    obtain ⟨code, hpath, rfl, htidy⟩ := htidily
    obtain ⟨_, _, hg⟩ := hpath.grown hs.current
    have hcode : ∀ hb : Binds k i t s', s'.pendingPhis = t.pendingPhis →
        Lowers k i s s' code := by
      intro hb hpending
      refine .code hphi (hpending.trans hg.pending) (fun hsmall => ?_)
        (hleaves.mono hb.current (hb.leads d).values)
      rw [State.vregs_of_current hb.current]
      exact htidy fun c hc => hsmall c (hb.current.trans hc)
    cases r with
    | none =>
      subst hbind
      exact ⟨i, _, d, code, hi, hpath, .nothing, hd, hcode .nothing rfl⟩
    | some o =>
      obtain ⟨hunbound, rfl⟩ := hbind
      have hb : Binds k i t { t with values := t.values.insert i.value o } :=
        .result o hunbound
      refine ⟨i, t, d, code, hi, hpath, hb, hd.binds hb fun id hid => ?_, hcode hb rfl⟩
      cases (Bindings.find?_insert_self t.values i.value o).symm.trans hid
      exact .inr ((hresult _ rfl).imp fun _ ho => ho.plain)

/-! ## Segments and parts -/

/-- The code that one instruction was lowered to, and the states around its lowering. -/
structure Segment where
  inst : InstId
  before : State
  after : State
  insts : List Machine.Inst

/-- The code of one block, instruction by instruction. -/
structure Part where
  block : IR.BlockId
  id : Machine.BlockId
  segments : List Segment

variable {segs xs ys done : List Segment} {parts : List Part}

/-- The code of a block before the copies of phis. -/
def Part.insts (p : Part) : List Machine.Inst := p.segments.flatMap Segment.insts

/-- Instructions were lowered one after the other. -/
inductive Segments (env : Env) : State → List Segment → State → Prop
  | nil (s : State) : Segments env s [] s
  | cons {s t s' : State} {k : InstId} {insts : List Machine.Inst} {segs : List Segment}
      (run : Runs (lowerInst k) env s () t) (gains : Gains s t insts)
      (rest : Segments env t segs s') : Segments env s (⟨k, s, t, insts⟩ :: segs) s'

/-- Blocks were lowered one after the other: each was entered, filled and laid out. -/
inductive Parts (env : Env) : State → List Part → State → Prop
  | nil (s : State) : Parts env s [] s
  | cons {s t u v w s' : State} {b : IR.BlockId} {id : Machine.BlockId} {data : IR.Block}
      {segs : List Segment} {parts : List Part} (enter : Runs (blockFor b) env s id t)
      (direct : Runs (setInsertionBlock id) env t () u)
      (block : env.module.block b = .ok data) (segments : Segments env u segs v)
      (insts : segs.map Segment.inst = data.insts)
      (layout : Runs (change (·.appendBlock id)) env v () w)
      (rest : Parts env w parts s') :
      Parts env s (⟨b, id, segs⟩ :: parts) s'

/-! ## Entering and leaving a block -/

/-- Code goes to the insertion block only. -/
theorem Gains.instsOf_self {insts : List Machine.Inst} {mb : Machine.BlockId}
    (h : Gains s s' insts)
    (hmb : s.insertion = some mb) : s'.instsOf mb = s.instsOf mb ++ insts := by
  have hhere := h.here
  rw [State.insertionInsts, State.insertionInsts, h.insertion, hmb] at hhere
  exact hhere

theorem Gains.instsOf_nil (h : Gains s s' []) (mb : Machine.BlockId) :
    s'.instsOf mb = s.instsOf mb := by
  by_cases hmb : s.insertion = some mb
  · rw [h.instsOf_self hmb, List.append_nil]
  · exact h.others mb hmb

theorem Gains.unique {xs ys : List Machine.Inst} (h : Gains s s' xs)
    (h' : Gains s s' ys) : xs = ys :=
  List.append_cancel_left (h.here.symm.trans h'.here)

theorem instsOf_of_blocks (hc : s.current = some c)
    (hblocks : s'.current.map (·.machine.blocks) = some c.machine.blocks)
    (mb : Machine.BlockId) :
    s'.instsOf mb = s.instsOf mb := by
  obtain ⟨c', hc', heq⟩ := Option.map_eq_some_iff.mp hblocks
  simp only [State.instsOf, hc, hc', Option.bind_some, heq]

/-- A step that keeps registers and code. -/
structure Passes (s s' : State) (c c' : Current) : Prop where
  leads : Leads s s' c c'
  vregs : s'.vregs = s.vregs
  pending : s'.pendingPhis = s.pendingPhis
  insts : ∀ mb, s'.instsOf mb = s.instsOf mb

theorem enter_block {blk : IR.BlockId} {id : Machine.BlockId} (hs : Settled env s c)
    (henter : Runs (blockFor blk) env s id t)
    (hdirect : Runs (setInsertionBlock id) env t w s') :
    ∃ c', Settled env s' c' ∧ Passes s s' c c' ∧ c'.block = some id ∧
      c'.machine.layout = c.machine.layout := by
  obtain ⟨hpath, hvregs, -, -⟩ := blockFor_path henter
  obtain ⟨d, hd, hg⟩ := hpath.grown hs.current
  obtain ⟨d', hsettled⟩ := hs.later (.of_path hpath)
  cases hd.symm.trans hsettled.current
  have heq : s' = { t with current := some { d with block := some id } } := by
    rw [runs_setInsertionBlock.mp hdirect, hd]
    rfl
  obtain ⟨xs, hxs, hdecodes⟩ := hpath.gains hd
  cases hdecodes
  subst heq
  refine ⟨_, hsettled.replace rfl rfl rfl rfl rfl fun _ _ hv => .inl hv,
    ⟨{ Leads.of_grown hg with }, ?_, hg.pending, fun mb => ?_⟩, rfl, hg.layout⟩
  · rw [← hvregs, State.vregs_eq hd]
    rfl
  · rw [← hxs.instsOf_nil mb]
    exact instsOf_of_blocks hd rfl mb

theorem leave_block {id : Machine.BlockId} (hs : Settled env s c)
    (hlayout : Runs (change (·.appendBlock id)) env s w s') :
    ∃ c', Settled env s' c' ∧ Passes s s' c c' ∧ id.index.toNat < c'.machine.blocks.size ∧
      id ∉ c.machine.layout ∧ c'.machine.layout = c.machine.layout ++ [id] := by
  obtain ⟨d, f, hd, happend, rfl⟩ := runs_change.mp hlayout
  cases hs.current.symm.trans hd
  obtain ⟨-, ⟨blk, hblk⟩, hnew, -, rfl⟩ := Machine.Function.appendBlock_eq_ok.mp happend
  refine ⟨_, hs.replace rfl rfl rfl rfl rfl fun _ _ hv => .inl hv,
    ⟨{ Leads.refl s c with }, (State.vregs_eq hs.current).symm, rfl, fun mb => ?_⟩,
    (Array.getElem?_eq_some_iff.mp hblk).1, hnew, rfl⟩
  exact instsOf_of_blocks hs.current rfl mb

theorem lowerInsts_segments {ids : List InstId} (hs : Settled env s c)
    (h : Runs (ids.forM lowerInst) env s w s') :
    ∃ segs c', Segments env s segs s' ∧ segs.map Segment.inst = ids ∧
      Settled env s' c' := by
  induction ids generalizing s c with
  | nil =>
    obtain rfl := runs_forM_nil.mp h
    exact ⟨[], c, .nil s, rfl, hs⟩
  | cons k ids ih =>
    obtain ⟨t, hrun, hrest⟩ := runs_forM_cons.mp h
    obtain ⟨i, u, d, code, -, hpath, hb, hd, -⟩ := lowerInst_lowers hs hrun
    obtain ⟨insts, hgains, -⟩ := hpath.gains (hb.current.symm.trans hd.current)
    obtain ⟨segs, c', hsegs, hmap, hc'⟩ := ih hd hrest
    exact ⟨_, c', .cons hrun (hgains.of_current hb.current) hsegs,
      by rw [List.map_cons, hmap], hc'⟩

/-- Lowering the blocks of a function, as the list of its parts. -/
theorem lowerBlocks_parts {blocks : List IR.BlockId} (hs : Settled env s c)
    (h : Runs (blocks.forM lowerBlock) env s w s') :
    ∃ parts, Parts env s parts s' ∧ parts.map Part.block = blocks := by
  induction blocks generalizing s c with
  | nil =>
    obtain rfl := runs_forM_nil.mp h
    exact ⟨[], .nil s, rfl⟩
  | cons blk blocks ih =>
    obtain ⟨t, hrun, hrest⟩ := runs_forM_cons.mp h
    simp only [lowerBlock, runs_bind, runs_sourceModule, runs_check] at hrun
    obtain ⟨id, s1, henter, _, s2, hdirect, _, _, ⟨rfl, rfl⟩, data, _, ⟨hdata, rfl⟩, _,
      s3, hinsts, hlayout⟩ := hrun
    obtain ⟨d, hd, -⟩ := enter_block hs henter hdirect
    obtain ⟨segs, e, hsegs, hmap, he⟩ := lowerInsts_segments hd hinsts
    obtain ⟨e', he', -⟩ := leave_block he hlayout
    obtain ⟨parts, hparts, hblocks⟩ := ih he' hrest
    exact ⟨_, .cons henter hdirect hdata hsegs hmap hlayout hparts,
      by rw [List.map_cons, hblocks]⟩

/--
What the instructions of a stretch were lowered to is what the insertion block gained.
-/
theorem Segments.gains (h : Segments env s segs s') (hs : Settled env s c) :
    ∃ c', Settled env s' c' ∧ Leads s s' c c' ∧ c'.machine.layout = c.machine.layout ∧
      Gains s s' (segs.flatMap Segment.insts) := by
  induction h generalizing c with
  | nil s =>
    exact ⟨c, hs, .refl s c, rfl, .of_blocks hs.current hs.current rfl fun _ => rfl⟩
  | @cons s t s' k insts segs run gains _ ih =>
    obtain ⟨i, u, d, code, -, hpath, hb, hd, -⟩ := lowerInst_lowers hs run
    obtain ⟨d', hd', hg, hleads⟩ := leads_of_binds hs.current hpath hb
    cases hd.current.symm.trans hd'
    obtain ⟨c', hc', hleads', hlayout, hgains⟩ := ih hd
    exact ⟨c', hc', hleads.trans hleads', hlayout.trans hg.layout, gains.trans hgains⟩

theorem Parts.leads (h : Parts env s parts s') (hs : Settled env s c) :
    ∃ c', Settled env s' c' ∧ Leads s s' c c' := by
  induction h generalizing c with
  | nil s => exact ⟨c, hs, .refl s c⟩
  | cons enter direct block segments insts layout _ ih =>
    obtain ⟨d, hd, hsu, -⟩ := enter_block hs enter direct
    obtain ⟨e, he, huv, -⟩ := segments.gains hd
    obtain ⟨e', he', hvw, -⟩ := leave_block he layout
    obtain ⟨c', hc', hleads⟩ := ih he'
    exact ⟨c', hc', ((hsu.leads.trans huv).trans hvw.leads).trans hleads⟩

/-- How a segment was made, on the way to a later state. -/
structure Made (env : Env) (s' : State) (c' : Current) (seg : Segment) : Prop where
  before : ∃ c, Settled env seg.before c
  run : Runs (lowerInst seg.inst) env seg.before () seg.after
  gains : Gains seg.before seg.after seg.insts
  after : ∃ d, Settled env seg.after d ∧ Leads seg.after s' d c'

theorem Segments.made (h : Segments env s segs s') (hs : Settled env s c)
    (hc' : s'.current = some c') :
    ∀ seg ∈ segs, Made env s' c' seg := by
  induction h generalizing c with
  | nil => simp
  | cons run gains rest ih =>
    obtain ⟨-, -, d, -, -, -, -, hd, -⟩ := lowerInst_lowers hs run
    obtain ⟨e, he, hleads, -⟩ := rest.gains hd
    cases hc'.symm.trans he.current
    exact List.forall_mem_cons.mpr ⟨⟨⟨c, hs⟩, run, gains, d, hd, hleads⟩, ih hd hc'⟩

theorem Parts.made (h : Parts env s parts s') (hs : Settled env s c)
    (hc' : s'.current = some c') :
    ∀ seg ∈ parts.flatMap Part.segments, Made env s' c' seg := by
  induction h generalizing c with
  | nil => simp
  | cons enter direct block segments insts layout rest ih =>
    obtain ⟨d, hd, -⟩ := enter_block hs enter direct
    obtain ⟨e, he, -⟩ := segments.gains hd
    obtain ⟨e', he', hvw, -⟩ := leave_block he layout
    obtain ⟨f, hf, hleads⟩ := rest.leads he'
    cases hc'.symm.trans hf.current
    rw [List.flatMap_cons]
    intro seg hseg
    rcases List.mem_append.mp hseg with hhere | hlater
    · have hmade := segments.made hd he.current seg hhere
      obtain ⟨x, hx, hpre⟩ := hmade.after
      exact { hmade with after := ⟨x, hx, (hpre.trans hvw.leads).trans hleads⟩ }
    · exact ih he' hc' seg hlater

theorem Made.lowers {seg : Segment} (h : Made env s' c' seg) :
    ∃ i d code, env.module.inst seg.inst = .ok i ∧ Settled env seg.after d ∧
      Leads seg.after s' d c' ∧ d.machine.Decodes seg.insts code ∧
      (∀ x ∈ code, x.op.accepts x.operands = true) ∧
        Lowers seg.inst i seg.before seg.after code := by
  obtain ⟨c, hc⟩ := h.before
  obtain ⟨d, hd, hleads⟩ := h.after
  obtain ⟨i, u, e, code, hi, hpath, hb, he, hlowers⟩ := lowerInst_lowers hc h.run
  cases hd.current.symm.trans he.current
  obtain ⟨insts, hgains, hdecodes⟩ := hpath.gains (hb.current.symm.trans hd.current)
  cases h.gains.unique (hgains.of_current hb.current)
  exact ⟨i, d, code, hi, hd, hleads, hdecodes, hpath.accepts, hlowers⟩

/-- A block that is not laid out yet has no code. -/
def Blank (s : State) (c : Current) : Prop := ∀ mb, mb ∉ c.machine.layout →
    s.instsOf mb = []

/-- Each block of the layout consists of the segments of its part. -/
theorem Parts.code (h : Parts env s parts s') (hs : Settled env s c)
    (hblank : Blank s c) :
    ∃ c', Settled env s' c' ∧ Leads s s' c c' ∧
      c'.machine.layout = c.machine.layout ++ parts.map Part.id ∧
      (c.machine.layout.Nodup → c'.machine.layout.Nodup) ∧ Blank s' c' ∧
      (∀ mb ∈ c.machine.layout, s'.instsOf mb = s.instsOf mb) ∧
      ∀ p ∈ parts, p.id.index.toNat < c'.machine.blocks.size ∧
        s'.instsOf p.id = p.insts := by
  induction h generalizing c with
  | nil s => exact ⟨c, hs, .refl s c, by simp, id, hblank, fun _ _ => rfl, by simp⟩
  | @cons s t u v w s' b id data segs parts enter direct block segments insts
      layout _ ih =>
    obtain ⟨d, hd, hsu, hblock, hulayout⟩ := enter_block hs enter direct
    obtain ⟨e, he, huv, hvlayout, hgains⟩ := segments.gains hd
    obtain ⟨e', he', hvw, hroom, hnew, hwlayout⟩ := leave_block he layout
    have hinsertion : u.insertion = some id :=
      by rw [State.insertion, hd.current]; exact hblock
    rw [hvlayout, hulayout] at hnew hwlayout
    have hself : w.instsOf id = segs.flatMap Segment.insts := by
      rw [hvw.insts, hgains.instsOf_self hinsertion, hsu.insts, hblank id hnew,
        List.nil_append]
    have hother : ∀ mb, mb ≠ id → w.instsOf mb = s.instsOf mb := by
      intro mb hmb
      rw [hvw.insts, hgains.others mb, hsu.insts]
      rw [hinsertion]
      exact fun heq => hmb (Option.some.inj heq).symm
    have hblank' : Blank w e' := by
      intro mb hmb
      rw [hwlayout, List.mem_append, List.mem_singleton, not_or] at hmb
      rw [hother mb hmb.2, hblank mb hmb.1]
    obtain ⟨c', hc', hleads, hlayout, hnodup, hlast, hold, hparts⟩ := ih he' hblank'
    rw [hwlayout] at hold
    refine ⟨c', hc', ((hsu.leads.trans huv).trans hvw.leads).trans hleads, ?_,
      fun hn => hnodup ?_, hlast, fun mb hmb => ?_,
      List.forall_mem_cons.mpr ⟨⟨Nat.lt_of_lt_of_le hroom hleads.room, ?_⟩, hparts⟩⟩
    · rw [hlayout, hwlayout, List.append_assoc]
      rfl
    · rw [hwlayout, ← List.concat_eq_append]
      exact hn.concat hnew
    · rw [hold mb (List.mem_append_left _ hmb)]
      exact hother mb fun heq => hnew (heq ▸ hmb)
    · rw [hold id (by simp)]
      exact hself

/-! ## Phis that wait -/

/--
Each phi that waits for its copies was lowered to a register, in one of the segments.
-/
def Awaited (env : Env) (segs : List Segment) (s : State) : Prop :=
  ∀ k ∈ s.pendingPhis, ∃ seg ∈ segs, seg.inst = k ∧ ∃ i dst, env.module.inst k = .ok i ∧
    i.opcode = .phi ∧ seg.after.values.find? i.value = some dst ∧
    s.values.find? i.value = some dst ∧ s.Stands dst fun o => ∃ r, o.form = .virt r

theorem Awaited.leads (h : Awaited env segs s) (hc : s.current = some c)
    (hc' : s'.current = some c') (hl : Leads s s' c c')
    (hpending : s'.pendingPhis = s.pendingPhis) :
    Awaited env segs s' := by
  intro k hk
  rw [hpending] at hk
  obtain ⟨seg, hseg, hinst, i, dst, hi, hphi, hafter, hv, hdst⟩ := h k hk
  exact ⟨seg, hseg, hinst, i, dst, hi, hphi, hafter, hl.values _ _ hv,
    hl.stands hc hc' hdst⟩

theorem Awaited.mono (h : Awaited env xs s) (hsub : xs ⊆ ys) : Awaited env ys s := by
  intro k hk
  obtain ⟨seg, hseg, hrest⟩ := h k hk
  exact ⟨seg, hsub hseg, hrest⟩

theorem Segments.awaited (h : Segments env s segs s') (hs : Settled env s c)
    (ha : Awaited env done s) : Awaited env (done ++ segs) s' := by
  induction h generalizing c done with
  | nil s => exact ha.mono (by simp)
  | @cons s t s' k insts segs run gains rest ih =>
    obtain ⟨i, u, d, code, hi, hpath, hb, hd, hlowers⟩ := lowerInst_lowers hs run
    obtain ⟨d', hd', -, hleads⟩ := leads_of_binds hs.current hpath hb
    cases hd.current.symm.trans hd'
    have hnext : Awaited env (done ++ [⟨k, s, t, insts⟩]) t := by
      intro k' hk'
      cases hlowers with
      | phi opcode empty vregs pending number bound register =>
        rw [pending, List.mem_append, List.mem_singleton] at hk'
        rcases hk' with hold | rfl
        · obtain ⟨seg, hseg, hinst, j, dst, hj, hphi, hafter, hv, hdst⟩ := ha k' hold
          exact ⟨seg, List.mem_append_left _ hseg, hinst, j, dst, hj, hphi, hafter,
            hleads.values _ _ hv, hleads.stands hs.current hd.current hdst⟩
        · exact ⟨_, List.mem_append_right _ (List.mem_singleton.mpr rfl), rfl, i, _,
            hi, opcode, bound, bound, register.imp fun o ho => ⟨_, ho⟩⟩
      | code opcode pending tidy leaves =>
        exact (ha.leads hs.current hd.current hleads pending).mono (by simp) k' hk'
    have hrest := ih hd hnext
    rwa [List.append_assoc] at hrest

theorem Parts.awaited (h : Parts env s parts s') (hs : Settled env s c)
    (ha : Awaited env done s) :
    Awaited env (done ++ parts.flatMap Part.segments) s' := by
  induction h generalizing c done with
  | nil s => exact ha.mono (by simp)
  | cons enter direct block segments insts layout _ ih =>
    obtain ⟨d, hd, hsu, -⟩ := enter_block hs enter direct
    obtain ⟨e, he, -⟩ := segments.gains hd
    obtain ⟨e', he', hvw, -⟩ := leave_block he layout
    have hu := ha.leads hs.current hd.current hsu.leads hsu.pending
    have hw := (segments.awaited hd hu).leads he.current he'.current hvw.leads hvw.pending
    have hrest := ih he' hw
    rwa [List.append_assoc] at hrest

/-! ## The discipline of a whole function -/

/--
The segments of a function in the order in which they were made, told by its finished code
`m`: the code of an instruction is tidy and writes registers of its own only, and a phi
just takes a number.
-/
inductive Threaded (env : Env) (m : Machine.Function) : Nat → List Segment → Nat → Prop
  | nil (n : Nat) : Threaded env m n [] n
  | phi {n n' : Nat} {seg : Segment} {segs : List Segment} {i : Inst} {dst : OperandId}
      {r : VReg} {st : Storage} (inst : env.module.inst seg.inst = .ok i)
      (opcode : i.opcode = .phi) (empty : seg.insts = [])
      (bound : seg.after.values.find? i.value = some dst)
      (register : m.operands[dst.index.toNat]? = some ⟨.virt r, st⟩)
      (number : r.index.toNat = n) (after : seg.after.vregs = n + 1)
      (rest : Threaded env m (n + 1) segs n') :
      Threaded env m n (seg :: segs) n'
  | code {n k n' : Nat} {seg : Segment} {segs : List Segment} {i : Inst}
      {code : List Code} (inst : env.module.inst seg.inst = .ok i)
      (opcode : i.opcode ≠ .phi) (decodes : m.decode seg.insts = some code)
      (tidy : Tidy n n code k) (after : seg.after.vregs = k)
      (rest : Threaded env m k segs n') :
      Threaded env m n (seg :: segs) n'

theorem Threaded.append {m : Machine.Function} {n k n' : Nat}
    (h : Threaded env m n xs k) (h' : Threaded env m k ys n') :
    Threaded env m n (xs ++ ys) n' := by
  induction h with
  | nil => exact h'
  | phi inst opcode empty bound register number after _ ih =>
    exact .phi inst opcode empty bound register number after (ih h')
  | code inst opcode decodes tidy after _ ih =>
    exact .code inst opcode decodes tidy after (ih h')

section

variable {m : Machine.Function}

/-- A state whose operands are the first ones of a small arena is small. -/
theorem State.Small.of_initial (hc : s.current = some c)
    (hm : c.machine.operands.toList <+: m.operands.toList)
    (hsmall : m.operands.size ≤ 2 ^ 32) :
    s.Small := by
  intro d hd
  cases hc.symm.trans hd
  have hle := hm.length_le
  simp only [Array.length_toList] at hle
  omega

/-- What an id holds in a state, it holds in the finished code. -/
theorem State.Holds.finished (h : s.Holds id o) (hc : s.current = some c)
    (hm : c.machine.operands.toList <+: m.operands.toList) :
    m.operands[id.index.toNat]? = some o := by
  obtain ⟨d, hd, ho⟩ := h
  cases hc.symm.trans hd
  exact Machine.Function.getElem?_of_prefix hm ho

theorem Segments.threaded (h : Segments env s segs s') (hs : Settled env s c)
    (hc' : s'.current = some c') (hm : c'.machine.operands.toList <+: m.operands.toList)
    (hsmall : m.operands.size ≤ 2 ^ 32) :
    Threaded env m s.vregs segs s'.vregs := by
  induction h generalizing c with
  | nil s => exact .nil _
  | @cons s t s' k insts segs run gains rest ih =>
    obtain ⟨i, u, d, code, hi, hpath, hb, hd, hlowers⟩ := lowerInst_lowers hs run
    obtain ⟨e, he, hleads, -⟩ := rest.gains hd
    cases hc'.symm.trans he.current
    have hmd := hleads.operands.trans hm
    have htsmall := State.Small.of_initial hd.current hmd hsmall
    obtain ⟨insts', hgains, hdecodes⟩ := hpath.gains (hb.current.symm.trans hd.current)
    cases gains.unique (hgains.of_current hb.current)
    have hrest := ih hd hc'
    cases hlowers with
    | phi opcode empty vregs pending number bound register =>
      subst empty
      cases hdecodes
      obtain ⟨o, ho, hform⟩ := register htsmall
      obtain ⟨form, st⟩ := o
      cases hform
      rw [vregs] at hrest
      exact .phi hi opcode rfl bound (ho.finished hd.current hmd) number vregs hrest
    | code opcode pending tidy leaves =>
      exact .code hi opcode (Machine.Function.decode_eq_some.mpr (hdecodes.mono hmd))
        (tidy htsmall) rfl hrest

/-- The segments of all blocks, one after the other, are tidy. -/
theorem Parts.threaded (h : Parts env s parts s') (hs : Settled env s c)
    (hc' : s'.current = some c') (hm : c'.machine.operands.toList <+: m.operands.toList)
    (hsmall : m.operands.size ≤ 2 ^ 32) :
    Threaded env m s.vregs (parts.flatMap Part.segments) s'.vregs := by
  induction h generalizing c with
  | nil s => exact .nil _
  | @cons s t u v w s' b id data segs parts enter direct block segments insts layout
      rest ih =>
    obtain ⟨d, hd, hsu, -⟩ := enter_block hs enter direct
    obtain ⟨e, he, huv, -⟩ := segments.gains hd
    obtain ⟨e', he', hvw, -⟩ := leave_block he layout
    obtain ⟨f, hf, hleads⟩ := rest.leads he'
    cases hc'.symm.trans hf.current
    have hthis :=
      segments.threaded hd he.current ((hvw.leads.trans hleads).operands.trans hm) hsmall
    rw [hsu.vregs, ← hvw.vregs] at hthis
    exact hthis.append (ih he' hc')

end

end InstSelect.Lowering
