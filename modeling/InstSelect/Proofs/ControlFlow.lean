import InstSelect.Proofs.BlockMap
import InstSelect.Proofs.SourceBlocks

/-!
# Control flow of lowered functions

The blocks of a lowered function mirror those of its source: there is one for each, in the
same order, with the same name, and a block ends by jumps to the machine blocks of the
targets of its source. All else in a block stays in it: the code of the instructions
before the last one, and the copies of phis.
-/

namespace InstSelect.Machine

variable {insts : List Inst}

/-- Copies do not change how a block is left. -/
theorem filter_withCopies {copies : List Inst}
    (h : ∀ x ∈ copies, x.op.isTerminator = false) :
    (withCopies copies insts).filter (·.op.isTerminator) =
      insts.filter (·.op.isTerminator) := by
  have hcopies : copies.filter (·.op.isTerminator) = [] :=
    List.filter_eq_nil_iff.mpr fun x hx => by simp [h x hx]
  rw [withCopies, List.filter_append, List.filter_append, hcopies, List.append_nil,
    ← List.filter_append, List.takeWhile_append_dropWhile]

theorem Function.Decodes.filter {m : Function} {code : List Code}
    (h : m.Decodes insts code) :
    m.Decodes (insts.filter (·.op.isTerminator)) (code.filter (·.op.isTerminator)) := by
  induction h with
  | nil => exact .nil
  | @cons i c insts code hi _ ih =>
    rw [List.filter_cons, List.filter_cons, hi.1]
    split
    · exact .cons hi ih
    · exact ih

/-- Jumps take labels. -/
theorem label_of_accepts {op : Op} {o : Operand}
    (hop : op = .jmp ∨ ∃ cond, op = .jcc cond)
    (h : op.accepts [o] = true) : ∃ mb, o.form = .label mb := by
  have hshape : o.shape = .label := by
    rcases hop with rfl | ⟨cond, rfl⟩
    · simpa [Op.accepts] using h
    · simpa [Op.accepts] using h
  obtain ⟨form, st⟩ := o
  cases form with
  | label mb => exact ⟨mb, rfl⟩
  | _ => simp [Operand.shape] at hshape

end InstSelect.Machine

namespace InstSelect.IR.Module

/-- A block ends in an instruction that leaves it, and holds no other such instruction. -/
def EndsOnce (m : Module) (b : BlockId) : Prop :=
  ∃ data body k i, m.block b = .ok data ∧ data.insts = body ++ [k] ∧ m.inst k = .ok i ∧
    i.opcode.isTerminator = true ∧
    ∀ j ∈ body, ∀ i, m.inst j = .ok i → i.opcode.isTerminator = false

end InstSelect.IR.Module

namespace InstSelect.Lowering

open IR (ValueId Inst)
open Machine (Operand OperandId Code withCopies)

variable {env : Env} {func : IR.FuncId} {s s' : State} {m : Machine.Function}
  {B : IR.BlockId → Machine.BlockId} {mb : Machine.BlockId} {seg : Segment} {p : Part}
  {c c' : Current} {o : Operand}

/-- A value that is a source block, and a label of its machine block. -/
def Targets (env : Env) (B : IR.BlockId → Machine.BlockId) (v : ValueId) (o : Operand) :
    Prop :=
  ∃ ty b, env.module.value v = .ok ⟨ty, .block b⟩ ∧ o.form = .label (B b)

/-- The code that leaves a block, by the instruction that leaves its source block. -/
inductive Ends (env : Env) (B : IR.BlockId → Machine.BlockId) (i : Inst) :
    List Code → Prop
  | br {x : ValueId} {o : Operand} (opcode : i.opcode = .br) (operands : i.operands = [x])
      (target : Targets env B x o) : Ends env B i [⟨.jmp, [o]⟩]
  | condBr {c x y : ValueId} {ox oy : Operand} (opcode : i.opcode = .condBr)
      (operands : i.operands = [c, x, y]) (ifTrue : Targets env B x ox)
      (ifFalse : Targets env B y oy) :
      Ends env B i [⟨.jcc .e, [oy]⟩, ⟨.jmp, [ox]⟩]
  | ret (opcode : i.opcode = .ret) : Ends env B i [⟨.ret, []⟩]

/--
How the code of an instruction leaves the block: not at all, or as the instruction leaves
its own.
-/
def Exits (env : Env) (B : IR.BlockId → Machine.BlockId) (i : Inst) (ts : List Code) :
    Prop :=
  if i.opcode.isTerminator then Ends env B i ts else ts = []

/-- What a branch goes to is the machine block of its target. -/
theorem Settled.targets {v : ValueId} {id : OperandId} (h : Settled env s c)
    (hsmall : s.Small) (hB : ∀ b mb, s.blocks.find? b = some mb → B b = mb)
    (hv : s.values.find? v = some id) (ho : s.Holds id o) (hform : o.form = .label mb) :
    Targets env B v o := by
  obtain ⟨o', ho', hlabel⟩ := h.values v id hv hsmall
  cases ho.unique ho'
  obtain ⟨ty, b, hvalue, hb⟩ := hlabel mb hform
  exact ⟨ty, b, hvalue, by rw [hB b mb hb, hform]⟩

/-- How the code of an instruction leaves the block. -/
theorem Made.exits (h : Made env s' c' seg)
    (hm : c'.machine.operands.toList <+: m.operands.toList)
    (hsmall : m.operands.size ≤ 2 ^ 32)
    (hB : ∀ b mb, s'.blocks.find? b = some mb → B b = mb) :
    ∃ i code, env.module.inst seg.inst = .ok i ∧ m.Decodes seg.insts code ∧
      Exits env B i (code.filter (·.op.isTerminator)) := by
  obtain ⟨i, d, code, hi, hd, hleads, hdecodes, hfits, hlowers⟩ := h.lowers
  have hmd := hleads.operands.trans hm
  have hsmall' : seg.after.Small := .of_initial hd.current hmd hsmall
  have hB' : ∀ b mb, seg.after.blocks.find? b = some mb → B b = mb := fun b mb hb =>
    hB b mb (hleads.blocks b mb hb)
  refine ⟨i, code, hi, hdecodes.mono hmd, ?_⟩
  cases hlowers with
  | phi opcode empty =>
    subst empty
    simp [Exits, opcode, IR.Opcode.isTerminator]
  | code opcode pending tidy leaves =>
    have haccepts : ∀ x ∈ code.filter (·.op.isTerminator),
        x.op.accepts x.operands = true :=
      fun x hx => hfits x (List.mem_of_mem_filter hx)
    generalize code.filter (·.op.isTerminator) = ts at leaves haccepts ⊢
    cases leaves with
    | br opcode operands bound target =>
      obtain ⟨mb, hform⟩ :=
        Machine.label_of_accepts (.inl rfl) (haccepts _ List.mem_cons_self)
      rw [Exits, if_pos (by rw [opcode]; rfl)]
      exact .br opcode operands (hd.targets hsmall' hB' bound target hform)
    | condBr opcode operands ifTrue onTrue ifFalse onFalse =>
      obtain ⟨mb, hform⟩ :=
        Machine.label_of_accepts (.inr ⟨_, rfl⟩) (haccepts _ List.mem_cons_self)
      obtain ⟨mb', hform'⟩ := Machine.label_of_accepts (.inl rfl)
        (haccepts _ (List.mem_cons_of_mem _ List.mem_cons_self))
      rw [Exits, if_pos (by rw [opcode]; rfl)]
      exact .condBr opcode operands (hd.targets hsmall' hB' ifTrue onTrue hform')
        (hd.targets hsmall' hB' ifFalse onFalse hform)
    | ret opcode =>
      rw [Exits, if_pos (by rw [opcode]; rfl)]
      exact .ret opcode
    | stays opcode => rw [Exits, if_neg (by rw [opcode]; decide)]

/-- The code of an instruction that stays in its block. -/
theorem Made.stays {i : Inst} (h : Made env s' c' seg)
    (hi : env.module.inst seg.inst = .ok i) (hop : i.opcode.isTerminator = false) :
    ∀ x ∈ seg.insts, x.op.isTerminator = false := by
  obtain ⟨j, d, code, hj, -, -, hdecodes, -, hlowers⟩ := h.lowers
  cases hi.symm.trans hj
  have hnone : code.filter (·.op.isTerminator) = [] := by
    cases hlowers with
    | phi opcode empty => rw [empty]; rfl
    | code opcode pending tidy leaves =>
      generalize code.filter (·.op.isTerminator) = ts at leaves
      cases leaves with
      | br opcode | condBr opcode | ret opcode =>
        rw [opcode] at hop
        cases hop
      | stays => rfl
  have hfilter := hdecodes.filter
  rw [hnone] at hfilter
  have hinsts := List.forall₂_nil_right_iff.mp hfilter
  intro x hx
  exact Bool.not_eq_true _ ▸ List.filter_eq_nil_iff.mp hinsts x hx

/-! ## Whole functions -/

namespace Assembly

variable (A : Assembly env func s s')

/-- The machine block of a source block. -/
def blockOf (b : IR.BlockId) : Machine.BlockId := (A.copied.blocks.find? b).getD ⟨0⟩

/-- The finished blocks, and the source blocks they are for. -/
theorem mapped : ∃ c bs, Mapped env A.copied c bs ∧ c.source = func ∧
    A.machine = { c.machine with isSealed := true } := by
  obtain ⟨c, d, hc, -, hsource, -, hd, hleads, -⟩ := A.filling_code
  obtain ⟨e, he, hg, hm⟩ := A.copying_grown hd
  obtain ⟨d', ds, hd', hmd⟩ :=
    A.filling.mapped hc (mapped_of_beginFunction A.opening hc.current)
  cases hd.current.symm.trans hd'.current
  have hmd' : Mapped env { A.filled with pendingPhis := [] } d ds :=
    hmd.congr rfl rfl rfl (fun _ => rfl) fun o ho => .inl ho
  obtain ⟨e', es, he', hme⟩ := A.copying_follows.mapped hd.current hmd'
  cases he.current.symm.trans he'
  exact ⟨e, es, hme, by rw [hg.source, hleads.source, hsource], hm⟩

theorem bound_of_part (hp : p ∈ A.parts) :
    A.copied.blocks.find? p.block = some p.id ∧
      ∃ data, env.module.block p.block = .ok data ∧
        p.segments.map Segment.inst = data.insts := by
  obtain ⟨c, -, hc, -⟩ := A.filling_code
  obtain ⟨hbound, hdata⟩ := A.filling.bound hc p hp
  exact ⟨A.copying_follows.blocks hbound, hdata⟩

theorem blockOf_part (hp : p ∈ A.parts) : A.blockOf p.block = p.id := by
  rw [blockOf, (A.bound_of_part hp).1]
  rfl

/-- The layout follows the order of the source. -/
theorem layout_eq_map : A.machine.layout = A.source.blocks.map A.blockOf := by
  rw [A.layout_eq, ← A.blocks, List.map_map]
  exact List.map_congr_left fun p hp => (A.blockOf_part hp).symm

theorem blockOf_injective {b b' : IR.BlockId} (hb : b ∈ A.source.blocks)
    (hb' : b' ∈ A.source.blocks) (h : A.blockOf b = A.blockOf b') : b = b' := by
  have hnodup := A.layout_nodup
  rw [A.layout_eq_map] at hnodup
  exact List.inj_on_of_nodup_map hnodup hb hb' h

/-- The blocks that were created are those of the source. -/
theorem perm_blocks {bs : List IR.BlockId} (hm : env.module.Linked)
    (hmapped : Mapped env A.copied c bs) (hsource : c.source = func) :
    bs.Perm A.source.blocks := by
  have hnodup := (hm.functions _ _ (IR.Module.function_eq_ok.mp A.function)).nodup
  refine (List.perm_ext_iff_of_nodup hmapped.nodup hnodup).mpr fun b =>
    ⟨fun hb => ?_, fun hb => ?_⟩
  · obtain ⟨k, hk⟩ := List.getElem?_of_mem hb
    obtain ⟨data, hdata, hfunc, -⟩ := hmapped.own k b hk
    exact hm.mem_blocks hdata (by rw [hfunc, hsource]; exact A.function)
  · rw [← A.blocks] at hb
    obtain ⟨p, hp, rfl⟩ := List.mem_map.mp hb
    obtain ⟨k, hk, -⟩ := (hmapped.bound _ _).mp (A.bound_of_part hp).1
    exact List.mem_of_getElem? hk

/-- Labels name blocks of the layout. -/
theorem label_mem_layout (hm : env.module.Linked) (ho : o ∈ A.machine.operands)
    (hform : o.form = .label mb) : mb ∈ A.machine.layout := by
  obtain ⟨c, bs, hmapped, hsource, hmachine⟩ := A.mapped
  rw [hmachine] at ho
  obtain ⟨b, hb, hfind⟩ := hmapped.exists_bound (hmapped.labels o ho mb hform)
  rw [A.layout_eq_map]
  refine List.mem_map.mpr ⟨b, (A.perm_blocks hm hmapped hsource).mem_iff.mp hb, ?_⟩
  rw [blockOf, hfind]
  rfl

/-- Copies stay in their block. -/
theorem copies_ops {x : Machine.Inst} (hx : x ∈ A.copies mb) :
    x.op = .mov ∨ x.op = .lea :=
  (A.placing_any.copies mb x hx).op

theorem made (hp : p ∈ A.parts) (hseg : seg ∈ p.segments) :
    ∃ d, Made env A.filled d seg ∧
      d.machine.operands.toList <+: A.machine.operands.toList := by
  obtain ⟨c, d, hc, -, -, -, hd, -⟩ := A.filling_code
  obtain ⟨e, -, hg, hm⟩ := A.copying_grown hd
  refine ⟨d, A.filling.made hc hd.current seg (List.mem_flatMap.mpr ⟨p, hp, hseg⟩), ?_⟩
  rw [hm]
  exact hg.operands

/-- What leaves a block is what its last segment leaves it by. -/
theorem filter_insts {xs : List Segment} {last : Segment} (hp : p ∈ A.parts)
    (hsegs : p.segments = xs ++ [last])
    (hstay : ∀ seg ∈ xs, ∀ i, env.module.inst seg.inst = .ok i →
      i.opcode.isTerminator = false) :
    p.insts.filter (·.op.isTerminator) = last.insts.filter (·.op.isTerminator) := by
  have hnone : (xs.flatMap Segment.insts).filter (·.op.isTerminator) = [] := by
    refine List.filter_eq_nil_iff.mpr fun x hx => ?_
    obtain ⟨seg, hseg, hx⟩ := List.mem_flatMap.mp hx
    obtain ⟨d, hmade, -⟩ := A.made hp (hsegs ▸ List.mem_append_left _ hseg)
    obtain ⟨i, -, -, hi, -⟩ := hmade.lowers
    simp [hmade.stays hi (hstay seg hseg i hi) x hx]
  rw [Part.insts, hsegs, List.flatMap_append, List.filter_append, hnone]
  simp

/-- A finished block is left as its source block is. -/
theorem ends_of_part (hsmall : A.machine.operands.size ≤ 2 ^ 32) (hp : p ∈ A.parts)
    (hends : env.module.EndsOnce p.block) :
    ∃ data k i blk ts, env.module.block p.block = .ok data ∧
      data.insts.getLast? = some k ∧
      env.module.inst k = .ok i ∧ A.machine.blocks[p.id.index.toNat]? = some blk ∧
      A.machine.decode (blk.insts.filter (·.op.isTerminator)) = some ts ∧
        Ends env A.blockOf i ts := by
  obtain ⟨data, body, k, i, hdata, hinsts, hi, hterm, hbody⟩ := hends
  obtain ⟨-, data', hdata', hsegs⟩ := A.bound_of_part hp
  cases hdata.symm.trans hdata'
  rw [hinsts] at hsegs
  obtain ⟨xs, rest, hsplit, hxs, hrest⟩ := List.map_eq_append_iff.mp hsegs
  obtain ⟨last, rfl, hlast⟩ := List.map_eq_singleton_iff.mp hrest
  have hmem : last ∈ p.segments :=
    hsplit ▸ List.mem_append_right _ (List.mem_singleton.mpr rfl)
  obtain ⟨blk, hblk, hcode⟩ := A.insts_of_part hp
  have hfilter :=
    A.filter_insts hp hsplit fun seg hseg => hbody _ (hxs ▸ List.mem_map_of_mem hseg)
  have hcopies : ∀ x ∈ A.copies p.id, x.op.isTerminator = false := by
    intro x hx
    rcases A.copies_ops hx with hop | hop <;> rw [hop] <;> rfl
  obtain ⟨d, hmade, hprefix⟩ := A.made hp hmem
  obtain ⟨j, code, hj, hdecodes, hexits⟩ :=
    hmade.exits (B := A.blockOf) hprefix hsmall fun b mb hb => by
    rw [blockOf, A.copying_follows.blocks hb]
    rfl
  rw [hlast] at hj
  cases hi.symm.trans hj
  rw [Exits, if_pos hterm] at hexits
  refine ⟨data, k, i, blk, _, hdata, by simp [hinsts], hi, hblk, ?_, hexits⟩
  rw [hcode, Machine.filter_withCopies hcopies, hfilter]
  exact Machine.Function.decode_eq_some.mpr hdecodes.filter

end Assembly

/-- The blocks of a machine function are those of its source. -/
structure Mirrors (A : Assembly env func s s') (B : IR.BlockId → Machine.BlockId) :
    Prop where
  /-- There is one machine block for each source block. -/
  count : A.machine.blocks.size = A.source.blocks.length
  layout : A.machine.layout = A.source.blocks.map B
  injective : ∀ b ∈ A.source.blocks, ∀ b' ∈ A.source.blocks, B b = B b' → b = b'
  labels : ∀ o ∈ A.machine.operands, ∀ mb, o.form = .label mb → mb ∈ A.machine.layout
  /--
  A block has the name of its source, and the code of its instructions with copies
  inserted.
  -/
  parts : ∀ p ∈ A.parts, ∃ data blk, env.module.block p.block = .ok data ∧
    p.id = B p.block ∧
    A.machine.blocks[p.id.index.toNat]? = some blk ∧ blk.name = blockName p.block data ∧
    p.segments.map Segment.inst = data.insts ∧
    blk.insts = withCopies (A.copies p.id) (p.segments.flatMap Segment.insts)
  copies : ∀ mb, ∀ x ∈ A.copies mb, x.op = .mov ∨ x.op = .lea
  /-- An instruction that does not end its block is lowered to code that stays in it. -/
  stays : ∀ p ∈ A.parts, ∀ seg ∈ p.segments, ∀ i, env.module.inst seg.inst = .ok i →
    i.opcode.isTerminator = false → ∀ x ∈ seg.insts, x.op.isTerminator = false
  /-- A block is left by the jumps that the last instruction of its source stands for. -/
  ends : A.machine.operands.size ≤ 2 ^ 32 → ∀ p ∈ A.parts, ∃ data k i blk ts,
    env.module.block p.block = .ok data ∧ data.insts.getLast? = some k ∧
    env.module.inst k = .ok i ∧
    A.machine.blocks[p.id.index.toNat]? = some blk ∧
    A.machine.decode (blk.insts.filter (·.op.isTerminator)) = some ts ∧ Ends env B i ts

/-- Control flow and order of every function that lowers are those of its source. -/
theorem lowerFunction_mirrors {id : Machine.FuncId} {f : IR.Function}
    (hbuilt : IR.Built env.module) (hvalues : env.module.values.size ≤ 2 ^ 32)
    (hf : env.module.function func = .ok f)
    (hends : ∀ b ∈ f.blocks, env.module.EndsOnce b)
    (h : Runs (lowerFunction func) env s (some id) s') :
    ∃ (A : Assembly env func s s') (B : IR.BlockId → Machine.BlockId), Mirrors A B := by
  obtain ⟨A⟩ := exists_assembly h
  cases hf.symm.trans A.function
  have hm := hbuilt.linked hvalues
  obtain ⟨c, bs, hmapped, hsource, hmachine⟩ := A.mapped
  refine ⟨A, A.blockOf, ?_, A.layout_eq_map,
    fun b hb b' hb' => A.blockOf_injective hb hb',
    fun o ho mb => A.label_mem_layout hm ho, fun p hp => ?_,
    fun mb x hx => A.copies_ops hx,
    fun p hp seg hseg i hi hop => ?_,
    fun hsmall p hp => A.ends_of_part hsmall hp (hends _ ?_)⟩
  · rw [hmachine, ← (A.perm_blocks hm hmapped hsource).length_eq]
    exact hmapped.size
  · obtain ⟨hbound, data, hdata, hsegs⟩ := A.bound_of_part hp
    obtain ⟨blk, hblk, hcode⟩ := A.insts_of_part hp
    obtain ⟨data', blk', hdata', -, hblk', hname⟩ := hmapped.block_of_bound hbound
    cases hdata.symm.trans hdata'
    have hsame : A.machine.blocks = c.machine.blocks := by rw [hmachine]
    rw [← hsame] at hblk'
    cases hblk.symm.trans hblk'
    exact ⟨data, blk, hdata, (A.blockOf_part hp).symm, hblk, hname, hsegs, hcode⟩
  · obtain ⟨d, hmade, -⟩ := A.made hp hseg
    exact hmade.stays hi hop
  · rw [← A.blocks]
    exact List.mem_map_of_mem hp

/--
A choice between two blocks that come together again; the first goes to the later one if
it holds.
-/
def crossing : IR.Module where
  name := "m"
  values := #[⟨.ptr (.function [.bool] .void false), .function ⟨0⟩⟩,
    ⟨.bool, .argument ⟨0⟩ 0⟩,
    ⟨.void, .block ⟨0⟩⟩, ⟨.void, .block ⟨1⟩⟩, ⟨.void, .block ⟨2⟩⟩, ⟨.void, .block ⟨3⟩⟩,
    ⟨.void, .instruction ⟨0⟩⟩, ⟨.void, .instruction ⟨1⟩⟩, ⟨.void, .instruction ⟨2⟩⟩,
    ⟨.void, .instruction ⟨3⟩⟩]
  insts := #[⟨.condBr, [⟨1⟩, ⟨4⟩, ⟨3⟩], .void, ⟨0⟩, ⟨6⟩⟩, ⟨.br, [⟨5⟩], .void, ⟨1⟩, ⟨7⟩⟩,
    ⟨.br, [⟨5⟩], .void, ⟨2⟩, ⟨8⟩⟩, ⟨.ret, [], .void, ⟨3⟩, ⟨9⟩⟩]
  blocks := #[⟨⟨0⟩, some "entry", [⟨0⟩], ⟨2⟩⟩, ⟨⟨0⟩, none, [⟨1⟩], ⟨3⟩⟩,
    ⟨⟨0⟩, none, [⟨2⟩], ⟨4⟩⟩, ⟨⟨0⟩, some "exit", [⟨3⟩], ⟨5⟩⟩]
  functions := #[⟨"f", ⟨[.bool], .void, false⟩, [⟨1⟩], [⟨0⟩, ⟨1⟩, ⟨2⟩, ⟨3⟩], false, ⟨0⟩⟩]
  globals := #[]

theorem built_crossing : IR.Built crossing := by
  have h := (IR.Built.empty "m").addFunction "f" ⟨[.bool], .void, false⟩ false
  have h := h.block ⟨0⟩ (some "entry") rfl
  have h := h.block ⟨0⟩ none rfl
  have h := h.block ⟨0⟩ none rfl
  have h := h.block ⟨0⟩ (some "exit") rfl
  have h := h.inst ⟨0⟩ .condBr [⟨1⟩, ⟨4⟩, ⟨3⟩] .void rfl
  have h := h.inst ⟨1⟩ .br [⟨5⟩] .void rfl
  have h := h.inst ⟨2⟩ .br [⟨5⟩] .void rfl
  have h := h.inst ⟨3⟩ .ret [] .void rfl
  exact h

theorem endsOnce_crossing :
    ∀ b ∈ [(⟨0⟩ : IR.BlockId), ⟨1⟩, ⟨2⟩, ⟨3⟩], crossing.EndsOnce b := by
  simp only [List.forall_mem_cons, List.not_mem_nil, false_implies, implies_true,
    and_true]
  refine ⟨⟨_, [], ⟨0⟩, _, rfl, rfl, rfl, rfl, ?_⟩,
    ⟨_, [], ⟨1⟩, _, rfl, rfl, rfl, rfl, ?_⟩,
    ⟨_, [], ⟨2⟩, _, rfl, rfl, rfl, rfl, ?_⟩,
    ⟨_, [], ⟨3⟩, _, rfl, rfl, rfl, rfl, ?_⟩⟩ <;> simp

/-- The layout of these blocks is not the order in which they were created. -/
theorem crossing_mirrors :
    ∃ id s', Runs (lowerFunction ⟨0⟩) ⟨crossing, .win64⟩ (.initial "m") (some id) s' ∧
      ∃ (A : Assembly ⟨crossing, .win64⟩ ⟨0⟩ (.initial "m") s')
      (B : IR.BlockId → Machine.BlockId),
        Mirrors A B ∧ A.machine.layout = [⟨0⟩, ⟨2⟩, ⟨1⟩, ⟨3⟩] ∧
          A.machine.operands.size ≤ 2 ^ 32 := by
  obtain ⟨r, s', hrun, htest⟩ := runs_of_leaves (s := .initial "m")
    (show leaves (lowerFunction ⟨0⟩) ⟨crossing, .win64⟩ _ (fun r s => r.isSome &&
      s.output.functions.all fun m => m.layout = [⟨0⟩, ⟨2⟩, ⟨1⟩, ⟨3⟩] ∧
      m.operands.size ≤ 2 ^ 32) = true by decide +kernel)
  rw [Bool.and_eq_true, Option.isSome_iff_exists] at htest
  obtain ⟨⟨id, rfl⟩, htest⟩ := htest
  obtain ⟨A, B, hmirrors⟩ :=
    lowerFunction_mirrors built_crossing (by decide) rfl endsOnce_crossing hrun
  rw [A.output, List.all_append, Bool.and_eq_true, List.all_cons, Bool.and_eq_true,
    decide_eq_true_eq] at htest
  exact ⟨id, s', hrun, A, B, hmirrors, htest.2.1⟩

end InstSelect.Lowering
