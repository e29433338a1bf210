import InstSelect.Proofs.OperandWidths
import InstSelect.Proofs.PhiMoves
import InstSelect.Proofs.StraightLine

/-!
# Blocks that only move words

The finished code of functions that consist of phis, branches and returns over values at
hand. An argument is in its register, a constant is an immediate, and a phi has a register
of its own. A block computes at most the flags that its branch tests, then makes the moves
of the phis behind it, and is left. The code that fetches a condition writes no register
of a phi.
-/

namespace InstSelect.Machine

def Function.codeOf (m : Function) (b : BlockId) : Option (List Code) :=
  m.blocks[b.index.toNat]?.bind fun blk => m.decode blk.insts

variable {m : Function} {h : Host} {σ : Cpu} {o : Operand} {b : BlockId}

abbrev Code.stays (c : Code) : Bool := !c.op.isTerminator

/-- Copies are inserted where the first instruction leaves the block. -/
theorem Function.Decodes.withCopies {copies insts : List Inst} {mid code : List Code}
    (hcopies : m.Decodes copies mid) (h : m.Decodes insts code) :
    m.Decodes (withCopies copies insts)
    (code.takeWhile Code.stays ++ mid ++ code.dropWhile Code.stays) := by
  have hsplit : m.Decodes (insts.takeWhile fun i => !i.op.isTerminator)
    (code.takeWhile Code.stays) ∧
      m.Decodes (insts.dropWhile fun i => !i.op.isTerminator)
      (code.dropWhile Code.stays) := by
    induction h with
    | nil => exact ⟨.nil, .nil⟩
    | @cons i c insts code hi hrest ih =>
      rw [List.takeWhile_cons, List.takeWhile_cons, List.dropWhile_cons,
        List.dropWhile_cons, Code.stays, hi.1]
      split
      · exact ⟨.cons hi ih.1, ih.2⟩
      · exact ⟨.nil, .cons hi hrest⟩
  exact List.rel_append (List.rel_append hsplit.1 hcopies) hsplit.2

theorem Function.Operands.writes_inst {i : Inst} {c : Code} {r : VReg}
    (hos : m.Operands i.operands c.operands) (hop : i.op = c.op) (h : c.Writes r) :
    m.Writes i r := by
  obtain ⟨o, ho, hform⟩ := h
  obtain ⟨op, ids⟩ := i
  obtain ⟨op', os⟩ := c
  cases hop
  unfold Code.dst? at ho
  split at ho
  · next hwrites =>
    cases hos with
    | nil => cases ho
    | cons hhead _ =>
      cases ho
      exact ⟨hwrites, _, rfl, _, hhead, hform⟩
  · cases ho

/-- Registers that no instruction writes are not written by its code. -/
theorem Function.Decodes.spares {insts : List Inst} {code : List Code} {r : VReg}
    (h : m.Decodes insts code) (hr : ∀ i ∈ insts, ¬ m.Writes i r) :
    ∀ c ∈ code, ¬ c.Writes r := by
  intro c hc hwrites
  obtain ⟨i, hi, hop, hos⟩ := Lowering.exists_left_of_forall₂ h c hc
  exact hr i hi (hos.writes_inst hop hwrites)

namespace Fetch

variable {n k : Nat} {o o' : Operand} {code : List Code}

theorem stays (hf : Fetch n o o' code k) : ∀ c ∈ code, c.stays = true := by
  cases hf with
  | keep => simp
  | copy r hr =>
    refine List.forall_mem_singleton.mpr ?_
    unfold Operand.copyOp
    split
    · rfl
    · rfl

/-- Fetching changes no register but those it writes. -/
theorem run_spares (hf : Fetch n o o' code k) (h : Host) (σ : Cpu) :
    ∃ τ, h.run code σ = some (.falls τ) ∧ τ.phys = σ.phys ∧
      (∀ r, (∀ c ∈ code, ¬ c.Writes r) → τ.virt r = σ.virt r) ∧
      (h.value τ o').setWidth o'.width = (h.value σ o).setWidth o'.width := by
  cases hf with
  | keep => exact ⟨σ, rfl, rfl, fun _ _ => rfl, rfl⟩
  | copy r hr =>
    have hrun :=
      (Host.run_singleton (h := h)).trans (step_copy (σ := σ) (o.inRegister r) o)
    refine ⟨_, hrun, rfl, fun q hq => ?_, read_write_virt r _ _⟩
    have hne : q ≠ r := by
      rintro rfl
      refine hq _ List.mem_cons_self ⟨o.inRegister q, ?_, rfl⟩
      unfold Code.dst? Operand.copyOp
      split
      · rfl
      · rfl
    exact if_neg hne

/-- Testing what was fetched sets the zero flag if the value is zero at its width. -/
theorem run_test {l : Nat} {om : Operand} {code' : List Code} (hf : Fetch n o om code l)
    (hf' : Fetch l om o' code' k) (ho : o.needsAddress = false) (h : Host) (σ : Cpu) :
    ∃ τ, h.run (code ++ code' ++ [⟨.test, [o', o']⟩]) σ = some (.falls τ) ∧
      τ.phys = σ.phys ∧
      (∀ r, (∀ c ∈ code ++ code', ¬ c.Writes r) → τ.virt r = σ.virt r) ∧
      (τ.status.zero = true ↔ (h.value σ o).setWidth o.width = 0) := by
  obtain ⟨τ1, run1, phys1, virt1, value1⟩ := hf.run_spares h σ
  obtain ⟨τ2, run2, phys2, virt2, value2⟩ := hf'.run_spares h τ1
  have hom : om.needsAddress = false := hf.direct ho
  have width1 : om.width = o.width := hf.width (by simp [ho])
  have width2 : o'.width = o.width := (hf'.width (by simp [hom])).trans width1
  refine ⟨{ τ2 with status := .ofTest o'.width (h.read τ2 o') (h.read τ2 o') }, ?_,
    phys2.trans phys1, fun r hr => ?_, ?_⟩
  · rw [List.append_assoc, Host.run_append_of_falls run1, Host.run_append_of_falls run2,
      Host.run_singleton]
    rfl
  · obtain ⟨hr1, hr2⟩ := List.forall_mem_append.mp hr
    exact (virt2 r hr2).trans (virt1 r hr1)
  · rw [width1] at value1
    rw [width2, value1] at value2
    simp only [Status.ofTest, BitVec.and_self, beq_iff_eq]
    rw [width2, ← value_of_direct (hf'.direct hom), value2]

end Fetch

theorem step_jmp (ho : o.form = .label b) : h.step σ ⟨.jmp, [o]⟩ = some (.jumps b σ) := by
  simp [Host.step, Host.unary, Operand.label?, ho]

/-- A conditional jump that is not taken falls through, wherever it would go. -/
theorem step_jcc_of_not {cond : Cond} (ho : o.label?.isSome = true)
    (hcond : cond.holds σ.status = false) :
    h.step σ ⟨.jcc cond, [o]⟩ = some (.falls σ) := by
  obtain ⟨b, hb⟩ := Option.isSome_iff_exists.mp ho
  simp [Host.step, Host.unary, hb, hcond]

theorem step_jcc {cond : Cond} (ho : o.form = .label b)
    (hcond : cond.holds σ.status = true) :
    h.step σ ⟨.jcc cond, [o]⟩ = some (.jumps b σ) := by
  simp [Host.step, Host.unary, Operand.label?, ho, hcond]

theorem Host.run_cons_of_jumps {τ : Cpu} {c : Code} {rest : List Code}
    (hc : h.step σ c = some (.jumps b τ)) :
    h.run (c :: rest) σ = some (.jumps b τ) := by
  rw [run, hc]

end InstSelect.Machine

namespace InstSelect.Lowering

open IR (ValueId Inst)
open Machine (Storage Operand OperandId PhysReg VReg Code Fetch Arena)

variable {env : Env} {func : IR.FuncId} {s s' : State} {c : Current} {v : ValueId}
  {o : Operand} {seg : Segment}

/-! ## Operands of values at hand -/

theorem Session.later {f : IR.Function} {sts : List Storage}
    (h : Session env func f sts s c)
    (hf : Follows env s s') : ∃ c', Session env func f sts s' c' := by
  induction hf generalizing c with
  | refl => exact ⟨c, h⟩
  | grow hg => exact h.grow hg
  | @edit s d blocks current size names =>
    cases h.current.symm.trans current
    refine ⟨_, h.persists ⟨rfl, rfl, rfl, rfl, rfl, List.prefix_refl _, fun _ _ hb => hb⟩
      (fun _ _ hv => .inl hv) (fun b id hb => ?_) fun id hid => ?_⟩
    · exact Nat.lt_of_lt_of_eq (h.blocks b id hb) size.symm
    · exact Nat.lt_of_lt_of_eq (h.insertion id hid) size.symm
  | trans _ _ ih ih' =>
    obtain ⟨d, hd⟩ := ih h
    exact ih' hd

namespace Assembly

variable (A : Assembly env func s s')

/-- The operands of the finished function. -/
def arena (hsmall : A.machine.operands.size ≤ 2 ^ 32) : Arena :=
  ⟨A.machine.operands.toList, by rwa [Array.length_toList]⟩

variable {A}

theorem located_of_get {hsmall : A.machine.operands.size ≤ 2 ^ 32} {id : OperandId}
    (hv : A.copied.values.find? v = some id) (ho : (A.arena hsmall).get? id = some o) :
    A.Located v o :=
  ⟨id, hv, by rwa [Arena.get?, arena, Array.getElem?_toList] at ho⟩

variable (A)

/-- The last state of the lowering of a defined function is that of a session. -/
theorem session (habi : env.abi = .win64) (hdef : A.source.isExternal = false) :
    ∃ sts c, Session env func A.source sts A.copied c := by
  obtain ⟨sts, c, hs⟩ :=
    (A.filling.reached (.opened A.opening)).session habi A.function hdef
  have hs' : Session env func A.source sts { A.filled with pendingPhis := [] } c :=
    hs.persists
    ⟨hs.current, rfl, rfl, rfl, rfl, List.prefix_refl _, fun _ _ hb => hb⟩
    (fun _ _ hv => .inl hv) hs.blocks hs.insertion
  exact ⟨sts, hs'.later A.copying_follows⟩

/-- Where the word of a value at hand is to be found. -/
inductive Found (v : ValueId) : Operand → Prop
  | argument {j : Nat} {ty : IR.Ty} {r : PhysReg} {st : Storage}
      (param : A.source.sig.params[j]? = some ty)
      (register : Abi.win64.argRegisters[j]? = some r) (storage : storageOf ty = .ok st)
      (word : ∀ W, env.module.leaf? W v = some (W.argument j)) : Found v ⟨.phys r, st⟩
  | constant {n : Int64} {st : Storage}
      (word : ∀ W, env.module.leaf? W v = some n.toBitVec) :
      Found v ⟨.imm n, st⟩
  | phi {b : IR.BlockId} {q : Inst} {r : VReg} {st : Storage}
      (block : b ∈ A.source.blocks) (phi : q ∈ env.module.phis b) (value : q.value = v)
      (number : r.index.toNat < A.filled.vregs)
      (word : ∀ W, env.module.leaf? W v = none) : Found v ⟨.virt r, st⟩

variable {A}

theorem Found.steady (h : A.Found v o) : o.Steady A.filled.vregs := by
  cases h with
  | argument | constant => trivial
  | phi _ _ _ number => exact number

theorem Found.direct (h : A.Found v o) : o.needsAddress = false := by
  cases h <;> rfl

variable (A)

theorem bits_of_value {ty : IR.Ty} {kind : IR.ValueKind} {st : Storage}
    (hv : env.module.value v = .ok ⟨ty, kind⟩) (hst : storageOf ty = .ok st) :
    env.module.bits v = st.width := by
  rw [IR.Module.bits, hv]
  exact IR.Ty.bits_eq hst

section

variable (hm : env.module.Linked) (hsmall : A.machine.operands.size ≤ 2 ^ 32)
  (habi : env.abi = .win64) (hdef : A.source.isExternal = false)
include hm hsmall habi hdef

/-- What a value that is no instruction is bound to. -/
theorem leaf_of_located {ty : IR.Ty} {kind : IR.ValueKind} (ho : A.Located v o)
    (hv : env.module.value v = .ok ⟨ty, kind⟩) (hkind : ∀ k, kind ≠ .instruction k) :
    ∃ sts c id, Session env func A.source sts A.copied c ∧
      A.copied.Within (A.arena hsmall) ∧
      (A.arena hsmall).get? id = some o ∧ Leaf env A.copied c v id := by
  obtain ⟨sts, c, hs⟩ := A.session habi hdef
  obtain ⟨id, hid, hget⟩ := ho
  have hwithin : A.copied.Within (A.arena hsmall) := by
    intro d hd
    show d.machine.operands.toList <+: A.machine.operands.toList
    exact A.operands_eq hd ▸ List.prefix_refl _
  have hget' : (A.arena hsmall).get? id = some o :=
    by rwa [Arena.get?, arena, Array.getElem?_toList]
  cases hs.bound v id hid with
  | leaf leaf => exact ⟨sts, c, id, hs, hwithin, hget', leaf⟩
  | result k i inst value _ =>
    subst value
    rw [value_of_inst hm inst] at hv
    cases hv
    exact absurd rfl (hkind k)

/-- The operand of a block that is branched to is the label of its machine block. -/
theorem target_of_located {b : IR.BlockId} (ho : A.Located v o)
    (hb : env.module.target? v = some b) :
    b ∈ A.source.blocks ∧ o.form = .label (A.blockOf b) := by
  obtain ⟨⟨ty, kind⟩, hv, hkind⟩ := bind_eq_ok.mp (IR.Module.target?_eq_some.mp hb)
  cases kind with
  | block b' =>
    cases hkind
    obtain ⟨sts, c, id, hs, hwithin, hget, leaf⟩ :=
      A.leaf_of_located hm hsmall habi hdef ho hv (by simp)
    cases leaf with
    | block ty' b' mb value block names =>
      cases hv.symm.trans value
      cases (names.get? (hwithin c hs.current)).symm.trans hget
      obtain ⟨c', bs, hmapped, hsource, -⟩ := A.mapped
      obtain ⟨k, hk, -⟩ := (hmapped.bound b mb).mp block
      refine ⟨(A.perm_blocks hm hmapped hsource).mem_iff.mp (List.mem_of_getElem? hk), ?_⟩
      rw [blockOf, block]
      rfl
    | argument _ _ value | constant _ _ _ _ value | function _ _ _ _ value
    | global _ _ _ value =>
      cases hv.symm.trans value
  | _ => exact absurd hkind violate_ne_ok

/-- The operands of values at hand, which are as wide as the values. -/
theorem found (hv : env.module.AtHand A.source v) (ho : A.Located v o) :
    A.Found v o ∧ env.module.bits v = o.width := by
  cases hv with
  | argument ty g k value =>
    obtain ⟨sts, c, id, hs, hwithin, hget, leaf⟩ :=
      A.leaf_of_located hm hsmall habi hdef ho value (by simp)
    cases leaf with
    | argument ty' index value' arg =>
      obtain ⟨a, ha, hindex, hst, hget'⟩ :=
        argument_operand hm A.function hs hwithin value' arg
      obtain ⟨ty'', hty, hr, hst'⟩ := hs.of_mem_incoming ha
      cases hget.symm.trans hget'
      refine ⟨.argument hty hr hst' fun W => ?_, bits_of_value value' hst⟩
      rw [IR.Module.leaf?, value', hindex]
    | constant _ _ _ _ value' | function _ _ _ _ value' | global _ _ _ value'
    | block _ _ _ value' =>
      cases value.symm.trans value'
  | constant ty n value =>
    obtain ⟨sts, c, id, hs, hwithin, hget, leaf⟩ :=
      A.leaf_of_located hm hsmall habi hdef ho value (by simp)
    cases leaf with
    | constant ty' k n' st value' word storage names =>
      cases value.symm.trans value'
      cases word
      cases (names.get? (hwithin c hs.current)).symm.trans hget
      refine ⟨.constant fun W => ?_, bits_of_value value storage⟩
      rw [IR.Module.leaf?, value]
    | argument _ _ value' | function _ _ _ _ value' | global _ _ _ value'
    | block _ _ _ value' =>
      cases value.symm.trans value'
  | phi b q block phi value =>
    subst value
    obtain ⟨seg, hseg, hi, hphi, -⟩ := A.exists_phi block phi
    obtain ⟨dst, r, st, hdst, hr, hst, hat⟩ := A.phi_located hsmall hseg hi hphi
    obtain rfl := ho.unique ⟨dst, hdst, hr⟩
    have hvalue := value_of_inst hm hi
    refine ⟨.phi block phi rfl ((A.threaded hsmall).phi_number hseg hat).2 fun W => ?_,
      bits_of_value hvalue hst⟩
    simp [IR.Module.leaf?, hvalue, hi, hphi]

end

end Assembly

/-! ## The code of a block -/

/-- The code of an instruction, in the finished function. -/
theorem Made.decodes {m : Machine.Function} {code : List Code} (h : Made env s' c seg)
    (hpath : Path env seg.before seg.after code)
    (hm : c.machine.operands.toList <+: m.operands.toList) :
    m.Decodes seg.insts code := by
  obtain ⟨d, hd, hleads⟩ := h.after
  obtain ⟨insts, hgains, hdecodes⟩ := hpath.gains hd.current
  cases h.gains.unique hgains
  exact hdecodes.mono (hleads.operands.trans hm)

/-- An instruction without a result binds nothing. -/
theorem Made.run_unbound {i : Inst} {x : LowerM Unit} (h : Made env s' c seg)
    (hi : env.module.inst seg.inst = .ok i)
    (hx : selectInst seg.inst i = (fun _ => none) <$> x) :
    ∃ u, Runs x env seg.before u seg.after := by
  obtain ⟨j, r, t, hj, hselect, hbind⟩ := runs_lowerInst h.run
  cases hi.symm.trans hj
  rw [hx] at hselect
  obtain ⟨rfl, u, hrun⟩ := none_map hselect
  cases hbind
  exact ⟨u, hrun⟩

/-- Segments begin in states of the lowering. -/
theorem Segments.reached_before {segs : List Segment} (h : Segments env s segs s')
    (hs : Reached env func s) : ∀ seg ∈ segs, Reached env func seg.before := by
  induction h with
  | nil => simp
  | cons run _ _ ih => exact List.forall_mem_cons.mpr ⟨hs, ih (hs.lowered run)⟩

theorem Parts.reached_before {parts : List Part} (h : Parts env s parts s')
    (hs : Reached env func s) :
    ∀ seg ∈ parts.flatMap Part.segments, Reached env func seg.before := by
  induction h with
  | nil => simp
  | cons enter direct _ segments _ layout _ ih =>
    have hu := hs.entered enter direct
    intro seg hseg
    rw [List.flatMap_cons] at hseg
    rcases List.mem_append.mp hseg with hhere | hlater
    · exact segments.reached_before hu seg hhere
    · exact ih ((segments.reached hu).laidOut layout) seg hlater

namespace Assembly

variable (A : Assembly env func s s')

/-- A phi has no code of its own. -/
theorem insts_of_phi {p : Part} {q : Inst} (hp : p ∈ A.parts) (hseg : seg ∈ p.segments)
    (hi : env.module.inst seg.inst = .ok q) (hphi : q.opcode = .phi) :
    seg.insts = [] := by
  obtain ⟨d, hmade, -⟩ := A.made hp hseg
  obtain ⟨i, e, code, hi', -, -, hdecodes, -, hlowers⟩ := hmade.lowers
  cases hi.symm.trans hi'
  cases hlowers with
  | phi _ empty =>
    subst empty
    exact List.forall₂_nil_right_iff.mp hdecodes
  | code opcode => exact absurd hphi opcode

/--
What a finished block is made of, if its source is phis and one instruction that leaves
it.
-/
structure Closing (p : Part) (i : Inst) (last : Segment) (d : Current) : Prop where
  terminator : env.module.terminator? p.block = some i
  inst : env.module.inst last.inst = .ok i
  mem : last ∈ A.segments
  insts : p.insts = last.insts
  made : Made env A.filled d last
  operands : d.machine.operands.toList <+: A.machine.operands.toList

theorem closing (hmoves : env.module.MovesWords A.source) {p : Part} (hp : p ∈ A.parts) :
    ∃ i last d, A.Closing p i last d := by
  have hb : p.block ∈ A.source.blocks := A.blocks ▸ List.mem_map_of_mem hp
  obtain ⟨i, hterm, -⟩ := hmoves.last p.block hb
  obtain ⟨k, hk, hi⟩ := Option.bind_eq_some_iff.mp hterm
  obtain ⟨-, data, hdata, hsegs⟩ := A.bound_of_part hp
  have hinsts := List.dropLast_append_getLast? k hk
  rw [IR.Module.instsOf_eq hdata] at hinsts
  rw [← hinsts] at hsegs
  obtain ⟨xs, rest, hsplit, hxs, hrest⟩ := List.map_eq_append_iff.mp hsegs
  obtain ⟨last, rfl, rfl⟩ := List.map_eq_singleton_iff.mp hrest
  have hmem : last ∈ p.segments :=
    hsplit ▸ List.mem_append_right _ (List.mem_singleton.mpr rfl)
  obtain ⟨d, hmade, hprefix⟩ := A.made hp hmem
  have hnone : xs.flatMap Segment.insts = [] := by
    refine List.flatMap_eq_nil_iff.mpr fun seg hseg => ?_
    have hbody : seg.inst ∈ (env.module.instsOf p.block).dropLast := by
      rw [IR.Module.instsOf_eq hdata, ← hxs]
      exact List.mem_map_of_mem hseg
    obtain ⟨q, hq, hphi⟩ := hmoves.body p.block hb seg.inst hbody
    exact A.insts_of_phi hp (hsplit ▸ List.mem_append_left _ hseg)
      (toOption_eq_some.mp hq) hphi
  refine ⟨i, last, d, hterm, toOption_eq_some.mp hi, List.mem_flatMap.mpr ⟨p, hp, hmem⟩,
    ?_, hmade, hprefix⟩
  rw [Part.insts, hsplit, List.flatMap_append, hnone]
  simp

variable {A} {p : Part} {i : Inst} {last : Segment} {d : Current}

theorem Closing.located {id : OperandId} (h : A.Closing p i last d)
    {hsmall : A.machine.operands.size ≤ 2 ^ 32} (hv : last.after.values.find? v = some id)
    (ho : (A.arena hsmall).get? id = some o) :
    A.Located v o := by
  obtain ⟨e, -, hleads⟩ := h.made.after
  exact located_of_get (A.copying_follows.values (hleads.values _ _ hv)) ho

theorem Closing.within (h : A.Closing p i last d)
    (hsmall : A.machine.operands.size ≤ 2 ^ 32) :
    last.after.Within (A.arena hsmall) := by
  intro c hc
  obtain ⟨e, he, hleads⟩ := h.made.after
  cases hc.symm.trans he.current
  exact hleads.operands.trans h.operands

/-- The code of a finished block. -/
theorem Closing.codeOf {code mid : List Code} (h : A.Closing p i last d)
    (hp : p ∈ A.parts) (hcode : A.machine.Decodes last.insts code)
    (hmid : A.machine.Decodes (A.copies p.id) mid) :
    A.machine.codeOf p.id =
      some (code.takeWhile Code.stays ++ mid ++ code.dropWhile Code.stays) := by
  obtain ⟨blk, hblk, hinsts⟩ := A.insts_of_part hp
  rw [Machine.Function.codeOf, hblk, Option.bind_some, Machine.Function.decode_eq_some,
    hinsts, h.insts]
  exact hmid.withCopies hcode

section

variable {mid : List Code} (h : A.Closing p i last d) (hp : p ∈ A.parts)
  (hsmall : A.machine.operands.size ≤ 2 ^ 32)
  (hmid : A.machine.Decodes (A.copies p.id) mid)
include h hp hsmall hmid

/-- A block that goes on to one other makes the moves and jumps. -/
theorem Closing.code_br {x : ValueId} (hop : i.opcode = .br) (hops : i.operands = [x]) :
    ∃ o, A.Located x o ∧ A.machine.codeOf p.id = some (mid ++ [⟨.jmp, [o]⟩]) := by
  obtain ⟨u, hrun⟩ := h.made.run_unbound h.inst
    (show selectInst last.inst i =
      (fun _ => none) <$> lowerBr i by simp only [selectInst, hop])
  obtain ⟨x', id, code, hops', hpath, -, hx, hcode⟩ := lowerBr_code hrun
  cases hops.symm.trans hops'
  obtain ⟨o, ho, rfl⟩ := hcode _ (h.within hsmall)
  exact ⟨o, h.located hx ho, h.codeOf hp (h.made.decodes hpath h.operands) hmid⟩

/--
A block that goes on to one of two others fetches the condition, tests it, makes the moves
and jumps.
-/
theorem Closing.code_condBr {x y : ValueId} (hop : i.opcode = .condBr)
    (hops : i.operands = [v, x, y]) :
    ∃ o om oc ox oy xs ys k l n, A.Located v o ∧ Fetch k o om xs l ∧ Fetch l om oc ys n ∧
      A.Located x ox ∧ A.Located y oy ∧ oy.label?.isSome = true ∧
      (∀ seg ∈ A.segments, ∀ r, PhiAt env A.machine seg r →
        ∀ c ∈ xs ++ ys, ¬ c.Writes r) ∧
      A.machine.codeOf p.id =
        some (xs ++ ys ++ [⟨.test, [oc, oc]⟩] ++ mid ++
          [⟨.jcc .e, [oy]⟩, ⟨.jmp, [ox]⟩]) := by
  obtain ⟨u, hrun⟩ := h.made.run_unbound h.inst
    (show selectInst last.inst i =
      (fun _ => none) <$> lowerCondBr i by simp only [selectInst, hop])
  obtain ⟨v', x', y', idc, idm, idx, idy, xs, ys, code, l, hops', hpath, hv, hx, hy,
      hcode⟩ :=
    lowerCondBr_code hrun
  cases hops.symm.trans hops'
  obtain ⟨⟨o, om, ho, hom, hfetch, -⟩, om', oc, ox, oy, hom', hfetch', -, hox,
      hoy, rfl⟩ :=
    hcode _ (h.within hsmall)
  cases hom.symm.trans hom'
  have hlabel : oy.label?.isSome = true := by
    have haccepts := hpath.accepts ⟨.jcc .e, [oy]⟩ (by simp)
    exact Machine.Host.label?_isSome (by simpa [Machine.Op.accepts] using haccepts)
  have hdecodes := h.made.decodes hpath h.operands
  have hstays : ∀ c ∈ xs ++ ys ++ [⟨.test, [oc, oc]⟩], Code.stays c = true := by
    intro c hc
    rcases List.mem_append.mp hc with hc | hc
    · rcases List.mem_append.mp hc with hc | hc
      · exact hfetch.stays c hc
      · exact hfetch'.stays c hc
    · cases List.mem_singleton.mp hc
      rfl
  have hassoc : xs ++ (ys ++ [⟨.test, [oc, oc]⟩, ⟨.jcc .e, [oy]⟩, ⟨.jmp, [ox]⟩]) =
      xs ++ ys ++ [⟨.test, [oc, oc]⟩] ++ [⟨.jcc .e, [oy]⟩, ⟨.jmp, [ox]⟩] := by simp
  rw [hassoc] at hdecodes
  have hleave : List.takeWhile Code.stays [⟨.jcc .e, [oy]⟩, ⟨.jmp, [ox]⟩] = [] ∧
      List.dropWhile Code.stays [⟨.jcc .e, [oy]⟩, ⟨.jmp, [ox]⟩] =
      [⟨.jcc .e, [oy]⟩, ⟨.jmp, [ox]⟩] := ⟨rfl, rfl⟩
  have hcode := h.codeOf hp hdecodes hmid
  rw [List.takeWhile_append_of_pos hstays, List.dropWhile_append_of_pos hstays, hleave.1,
    hleave.2, List.append_nil] at hcode
  refine ⟨o, om, oc, ox, oy, xs, ys, _, _, _, h.located hv ho, hfetch, hfetch',
    h.located hx hox, h.located hy hoy, hlabel, fun seg hseg r hr c hc => ?_, hcode⟩
  refine hdecodes.spares ((A.threaded hsmall).phi_spared hseg hr last h.mem) c ?_
  exact List.mem_append_left _ (List.mem_append_left _ hc)

/-- A block that returns puts the word into the register for it. -/
theorem Closing.code_ret (habi : env.abi = .win64) (hdef : A.source.isExternal = false)
    (hop : i.opcode = .ret) (hops : i.operands = [v]) :
    ∃ o st, A.Located v o ∧ storageOf A.source.sig.ret = .ok st ∧
      A.machine.codeOf p.id =
        some (⟨o.copyOp, [⟨.phys .rax, st⟩, o]⟩ :: mid ++ [⟨.ret, []⟩]) := by
  obtain ⟨u, hrun⟩ := h.made.run_unbound h.inst
    (show selectInst last.inst i =
      (fun _ => none) <$> lowerRet i by simp only [selectInst, hop])
  obtain ⟨c, code, hc, hpath, -, hcases⟩ := lowerRet_code hrun
  have hreached := A.filling.reached_before (.opened A.opening) last h.mem
  obtain ⟨sts, c', hs⟩ := hreached.session habi A.function hdef
  cases hc.symm.trans hs.current
  rcases hcases with ⟨hnone, -⟩ | ⟨x, id, hops', -, hx, hcode⟩
  · cases hops.symm.trans hnone
  · cases hops.symm.trans hops'
    obtain ⟨o, ho, rfl⟩ := hcode _ (h.within hsmall)
    have hdecodes := h.made.decodes hpath h.operands
    have hcode := h.codeOf hp hdecodes hmid
    refine ⟨o, c.machine.ret, h.located hx ho, storageOf_of_scalarStorage hs.ret, ?_⟩
    rw [hcode, habi]
    unfold Operand.copyOp
    split
    · rfl
    · rfl

end

end Assembly

end InstSelect.Lowering
