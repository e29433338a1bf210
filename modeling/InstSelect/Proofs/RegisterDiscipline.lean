import InstSelect.Proofs.Assembly

/-!
# The discipline of virtual registers

A machine function numbers its virtual registers without gaps, each belongs to one
operand, and no operand names another. Apart from the registers of phis, which the copies
write, and the temporaries of the copies, a register belongs to one source instruction:
only code of that instruction writes it, and in the order of the layout it first occurs
where it is defined. So what a value was bound to is never overwritten by the code of a
later instruction.

Operand ids are 32-bit words. What an id stands for is certain in arenas of up to `2 ^ 32`
operands, and the statements that go through ids are about those.
-/

namespace InstSelect.Machine

namespace Function

variable {m : Function} {i : Inst} {c : Code} {r : VReg}

/-- An instruction of a function names a register, itself or in an address. -/
def Mentions (m : Function) (i : Inst) (r : VReg) : Prop :=
  ∃ id ∈ i.operands, ∃ o, m.operands[id.index.toNat]? = some o ∧ r ∈ o.vregs

/-- An instruction of a function writes a register. -/
def Writes (m : Function) (i : Inst) (r : VReg) : Prop :=
  i.op.writes = true ∧
    ∃ id ∈ i.operands.head?, ∃ o, m.operands[id.index.toNat]? = some o ∧
    o.form = .virt r

/-- An instruction of a function writes a register and does not read it. -/
def Defines (m : Function) (i : Inst) (r : VReg) : Prop :=
  i.op.defines = true ∧ ∃ dst srcs o, i.operands = dst :: srcs ∧
    m.operands[dst.index.toNat]? = some o ∧ o.form = .virt r ∧
    ∀ id ∈ srcs, ∀ o, m.operands[id.index.toNat]? = some o → r ∉ o.vregs

theorem mentions_of_writes (h : m.Writes i r) : m.Mentions i r := by
  obtain ⟨-, id, hid, o, ho, hform⟩ := h
  refine ⟨id, List.mem_of_mem_head? hid, o, ho, ?_⟩
  simp [Operand.vregs, hform]

/-- What an id in a list stands for is in the list of operands. -/
theorem Operands.mem {ids : List OperandId} {os : List Operand} {id : OperandId}
    {o : Operand} (h : m.Operands ids os) (hid : id ∈ ids)
    (ho : m.operands[id.index.toNat]? = some o) :
    o ∈ os := by
  induction h with
  | nil => cases hid
  | @cons id' o' ids os hhead _ ih =>
    rcases List.mem_cons.mp hid with rfl | hid
    · cases hhead.symm.trans ho
      exact List.mem_cons_self
    · exact List.mem_cons_of_mem _ (ih hid)

theorem Operands.mentions (hop : m.Operands i.operands c.operands) (h : m.Mentions i r) :
    c.Mentions r := by
  obtain ⟨id, hid, o, ho, hr⟩ := h
  exact ⟨o, hop.mem hid ho, hr⟩

theorem Operands.writes (hos : m.Operands i.operands c.operands) (hop : i.op = c.op)
    (h : m.Writes i r) : c.Writes r := by
  obtain ⟨hwrites, id, hid, o, ho, hform⟩ := h
  obtain ⟨op, ids⟩ := i
  obtain ⟨op', os⟩ := c
  cases hos with
  | nil => cases hid
  | @cons id' o' ids os hhead _ =>
    cases hid
    cases hhead.symm.trans ho
    refine ⟨o, ?_, hform⟩
    cases hop
    simp [Code.dst?, hwrites]

theorem Operands.defines (hos : m.Operands i.operands c.operands) (hop : i.op = c.op)
    (h : c.Defines r) : m.Defines i r := by
  obtain ⟨hdefines, st, srcs, hsrcs, hfresh⟩ := h
  rw [hsrcs] at hos
  obtain ⟨dst, ids, hdst, hrest, hids⟩ := List.forall₂_cons_right_iff.mp hos
  exact ⟨hop ▸ hdefines, dst, ids, _, hids, hdst, rfl, fun id hid o ho =>
    hfresh o (Operands.mem hrest hid ho)⟩

end Function

/-- The instruction of a given place in decoded code. -/
theorem Function.Decodes.split {m : Function} {insts : List Inst} {xs ys : List Code}
    {c : Code} (h : m.Decodes insts (xs ++ c :: ys)) :
    ∃ front i back, insts = front ++ i :: back ∧ m.Decodes front xs ∧ i.op = c.op ∧
      m.Operands i.operands c.operands := by
  obtain ⟨i, back, ⟨hop, hos⟩, -, hdrop⟩ :=
    List.forall₂_cons_right_iff.mp (List.forall₂_drop_append insts xs (c :: ys) h)
  refine ⟨insts.take xs.length, i, back, ?_,
    List.forall₂_take_append insts xs (c :: ys) h, hop, hos⟩
  rw [← hdrop, List.take_append_drop]

end InstSelect.Machine

namespace InstSelect.Lowering

open Machine (Operand VReg Code withCopies)

variable {env : Env} {func : IR.FuncId} {s s' : State} {m : Machine.Function}
  {n n' : Nat} {segs : List Segment} {r : VReg} {i : Machine.Inst}

/-! ## Registers of tidy segments -/

/-- An instruction of decoded code, as it was decoded. -/
theorem exists_code {insts : List Machine.Inst} {code : List Code}
    (h : m.Decodes insts code) (hi : i ∈ insts) :
    ∃ c ∈ code, i.op = c.op ∧ m.Operands i.operands c.operands :=
  exists_left_of_forall₂ h.flip i hi

namespace Threaded

theorem le (h : Threaded env m n segs n') : n ≤ n' := by
  induction h with
  | nil n => exact Nat.le_refl n
  | phi inst opcode empty bound register number after _ ih => omega
  | code inst opcode decodes tidy after _ ih => exact Nat.le_trans tidy.le ih

/-- Registers that are there already are not written. -/
theorem spares (h : Threaded env m n segs n') (hr : r.index.toNat < n) :
    ∀ seg ∈ segs, ∀ i ∈ seg.insts, ¬ m.Writes i r := by
  induction h with
  | nil => simp
  | phi inst opcode empty bound register number after _ ih =>
    refine List.forall_mem_cons.mpr ⟨?_, ih (Nat.lt_succ_of_lt hr)⟩
    simp [empty]
  | code inst opcode decodes tidy after _ ih =>
    refine List.forall_mem_cons.mpr ⟨fun i hi hwrites => ?_,
      ih (Nat.lt_of_lt_of_le hr tidy.le)⟩
    obtain ⟨c, hc, hop, hos⟩ :=
      exists_code (Machine.Function.decode_eq_some.mp decodes) hi
    exact (tidy.spares c hc).not_writes hr (hos.writes hop hwrites)

/-- The segments up to one of them, and those after it. -/
theorem split {pre post : List Segment} {seg : Segment}
    (h : Threaded env m n (pre ++ seg :: post) n') :
    Threaded env m seg.after.vregs post n' := by
  induction pre generalizing n with
  | nil =>
    cases h with
    | phi inst opcode empty bound register number after rest => exact after ▸ rest
    | code inst opcode decodes tidy after rest => exact after ▸ rest
  | cons x pre ih =>
    cases h with
    | phi inst opcode empty bound register number after rest => exact ih rest
    | code inst opcode decodes tidy after rest => exact ih rest

/-- A register that is no phi's belongs to the segment that defines it. -/
theorem owned (h : Threaded env m n segs n') (hn : n ≤ r.index.toNat)
    (hn' : r.index.toNat < n')
    (hphi : ∀ seg ∈ segs, ∀ i dst o, env.module.inst seg.inst = .ok i → i.opcode = .phi →
      seg.after.values.find? i.value = some dst → m.operands[dst.index.toNat]? = some o →
      o.form ≠ .virt r) :
    ∃ pre seg post front i back, segs = pre ++ seg :: post ∧
      seg.insts = front ++ i :: back ∧
      (∀ x ∈ pre, ∀ j ∈ x.insts, ¬ m.Mentions j r) ∧ (∀ j ∈ front, ¬ m.Mentions j r) ∧
      m.Defines i r ∧ ∀ x ∈ post, ∀ j ∈ x.insts, ¬ m.Writes j r := by
  induction h with
  | nil => omega
  | @phi n n' seg segs i dst q st inst opcode empty bound register number after _ ih =>
    obtain ⟨hhere, hrest⟩ := List.forall_mem_cons.mp hphi
    have hne : r.index.toNat ≠ n := by
      rintro rfl
      obtain rfl : q = r := congrArg VReg.mk (UInt32.toNat_inj.mp number)
      exact hhere i dst _ inst opcode bound register rfl
    obtain ⟨pre, x, post, front, j, back, rfl, hinsts, hpre, hfront, hdef, hpost⟩ :=
      ih (by omega) hn' hrest
    refine ⟨seg :: pre, x, post, front, j, back, rfl, hinsts, ?_, hfront, hdef, hpost⟩
    exact List.forall_mem_cons.mpr ⟨by simp [empty], hpre⟩
  | @code n k n' seg segs i code inst opcode decodes tidy after rest ih =>
    have hdecodes := Machine.Function.decode_eq_some.mp decodes
    by_cases hk : r.index.toNat < k
    · obtain ⟨xs, c, ys, rfl, hxs, hdef⟩ := tidy.first hn hk
      obtain ⟨front, j, back, hinsts, hfront, hop, hos⟩ := hdecodes.split
      refine ⟨[], seg, segs, front, j, back, rfl, hinsts,
        by simp, fun y hy hmentions => ?_, hos.defines hop hdef, rest.spares hk⟩
      obtain ⟨d, hd, -, hds⟩ := exists_code hfront hy
      exact hxs d hd (hds.mentions hmentions)
    · obtain ⟨pre, x, post, front, j, back, rfl, hinsts, hpre, hfront, hdef, hpost⟩ :=
        ih (by omega) hn' (List.forall_mem_cons.mp hphi).2
      refine ⟨seg :: pre, x, post, front, j, back, rfl, hinsts, ?_, hfront, hdef, hpost⟩
      refine List.forall_mem_cons.mpr ⟨fun y hy hmentions => ?_, hpre⟩
      obtain ⟨d, hd, -, hds⟩ := exists_code hdecodes hy
      exact ((tidy.bounded d hd).not_mentions (by omega)) (hds.mentions hmentions)

end Threaded

/-! ## Whole functions -/

namespace Assembly

variable (A : Assembly env func s s')

/--
A register belongs to one segment: it is not named before, the segment defines it before
it is named otherwise, and it is not written afterwards, nor by the copies.
-/
def Owns (r : VReg) : Prop :=
  ∃ pre seg post front i back, A.segments = pre ++ seg :: post ∧
    seg.insts = front ++ i :: back ∧
    (∀ x ∈ pre, ∀ j ∈ x.insts, ¬ A.machine.Mentions j r) ∧
    (∀ j ∈ front, ¬ A.machine.Mentions j r) ∧ A.machine.Defines i r ∧
    (∀ x ∈ post, ∀ j ∈ x.insts, ¬ A.machine.Writes j r) ∧
    ∀ mb, ∀ j ∈ A.copies mb, ¬ A.machine.Writes j r

/-- What values are bound to after a segment is not written by later ones. -/
def KeepsValues : Prop :=
  ∀ pre seg post, A.segments = pre ++ seg :: post →
    ∀ v id o r, seg.after.values.find? v = some id →
    A.machine.operands[id.index.toNat]? = some o → o.form = .virt r →
    ∀ x ∈ post, ∀ i ∈ x.insts, ¬ A.machine.Writes i r

/-- The copies write the registers of phis and temporaries only. -/
theorem copy_writes (hsmall : A.machine.operands.size ≤ 2 ^ 32) {mb : Machine.BlockId}
    (hi : i ∈ A.copies mb) (hw : A.machine.Writes i r) :
    A.PhiReg r ∨ A.Temporary r := by
  obtain ⟨_, d, -, -, -, -, hd, -⟩ := A.filling_code
  obtain ⟨c, hc, hg, hm⟩ := A.copying_grown hd
  have hoperands : A.machine.operands = c.machine.operands := by rw [hm]
  have hplacing :=
    A.placing (P := fun o => ∃ q, o.form = .virt q ∧ (A.PhiReg q ∨ A.Temporary q))
    (fun o ho => by
      obtain ⟨q, hform, hle⟩ := ho
      exact ⟨q, hform, .inr hle⟩)
    (A.awaited.writable fun seg hseg i dst o hi hphi hafter ho hr => by
      obtain ⟨q, hform⟩ := hr
      have hget := ho.finished hd.current (hoperands ▸ hg.operands)
      exact ⟨q, hform, .inl ⟨seg, hseg, i, dst, o, hi, hphi, hafter, hget, hform⟩⟩)
  obtain ⟨dst, src, _, o, rfl, -, -, -, hdst⟩ := hplacing.copies mb i hi
  obtain ⟨o, ho, q, hform, hq⟩ :=
    hdst (.of_initial hc.current (hoperands ▸ List.prefix_refl _) hsmall)
  obtain ⟨-, id, hid, o', ho', hform'⟩ := hw
  cases hid
  have hget := ho.finished (m := A.machine) hc.current (hoperands ▸ List.prefix_refl _)
  cases hget.symm.trans ho'
  cases hform.symm.trans hform'
  exact hq

theorem owns (hsmall : A.machine.operands.size ≤ 2 ^ 32) (hphi : ¬ A.PhiReg r)
    (htemp : ¬ A.Temporary r) : A.Owns r := by
  obtain ⟨pre, seg, post, front, i, back, hsegs, hinsts, hpre, hfront, hdef, hpost⟩ :=
    (A.threaded hsmall).owned (Nat.zero_le _) (Nat.not_le.mp htemp)
      fun seg hseg i dst o hi hop hv ho hform =>
      hphi ⟨seg, hseg, i, dst, o, hi, hop, hv, ho, hform⟩
  refine ⟨pre, seg, post, front, i, back, hsegs, hinsts, hpre, hfront, hdef, hpost,
    fun mb j hj hwrites => ?_⟩
  rcases A.copy_writes hsmall hj hwrites with h | h
  · exact hphi h
  · exact htemp h

theorem keepsValues (hsmall : A.machine.operands.size ≤ 2 ^ 32) : A.KeepsValues := by
  intro pre seg post hsegs v id o r hv ho hform
  have hthreaded := A.threaded hsmall
  rw [hsegs] at hthreaded
  obtain ⟨c, d, hc, -, -, -, hd, -⟩ := A.filling_code
  obtain ⟨e, -, hg, hm⟩ := A.copying_grown hd
  have hoperands : A.machine.operands = e.machine.operands := by rw [hm]
  have hseg : seg ∈ A.segments := hsegs ▸ List.mem_append_right _ List.mem_cons_self
  obtain ⟨x, hx, hleads⟩ := (A.filling.made hc hd.current seg hseg).after
  have hmx : x.machine.operands.toList <+: A.machine.operands.toList :=
    hoperands ▸ hleads.operands.trans hg.operands
  obtain ⟨o', ho', -⟩ := hx.values v id hv (.of_initial hx.current hmx hsmall)
  cases (ho'.finished hx.current hmx).symm.trans ho
  refine hthreaded.split.spares (hx.below ho' r ?_)
  simp [Operand.vregs, hform]

end Assembly

/--
Virtual registers of a lowered function: the numbers below the count belong to one operand
each, and no operand names others; a register that no phi and no temporary of the copies
has belongs to the code of one instruction, where it is defined before it is named
otherwise; and no value's register is overwritten by the code of a later instruction.
-/
theorem lowerFunction_registers {id : Machine.FuncId}
    (h : Runs (lowerFunction func) env s (some id) s') :
    ∃ A : Assembly env func s s',
      A.machine.layout = A.parts.map Part.id ∧
      (∀ p ∈ A.parts, ∃ blk, A.machine.blocks[p.id.index.toNat]? = some blk ∧
        blk.insts = withCopies (A.copies p.id) p.insts) ∧
      (∀ k < A.machine.nextVReg.toNat,
        ∃! j : Nat, ∃ o, A.machine.operands[j]? = some o ∧ o.form = .virt ⟨.ofNat k⟩) ∧
      (∀ o ∈ A.machine.operands, ∀ r ∈ o.vregs,
        r.index.toNat < A.machine.nextVReg.toNat) ∧
      (A.machine.operands.size ≤ 2 ^ 32 →
        (∀ r, ¬ A.PhiReg r → ¬ A.Temporary r → A.Owns r) ∧ A.KeepsValues) := by
  obtain ⟨A⟩ := exists_assembly h
  refine ⟨A, A.layout_eq, fun p hp => A.insts_of_part hp,
    fun k hk => A.numbered.exists_unique hk,
    A.numbered.below, fun hsmall => ⟨fun r hphi htemp => A.owns hsmall hphi htemp, ?_⟩⟩
  exact A.keepsValues hsmall

/-- A loop that swaps two values as long as their sum is below an argument. -/
def swapLoop : IR.Module where
  name := "m"
  values := #[⟨.ptr (.function [.int .w32] (.int .w32) false), .function ⟨0⟩⟩,
    ⟨.int .w32, .argument ⟨0⟩ 0⟩, ⟨.void, .block ⟨0⟩⟩, ⟨.void, .block ⟨1⟩⟩,
    ⟨.void, .block ⟨2⟩⟩,
    ⟨.int .w32, .constant (.int 1)⟩, ⟨.void, .instruction ⟨0⟩⟩,
    ⟨.int .w32, .instruction ⟨1⟩⟩,
    ⟨.int .w32, .instruction ⟨2⟩⟩, ⟨.int .w32, .instruction ⟨3⟩⟩,
    ⟨.bool, .instruction ⟨4⟩⟩, ⟨.void, .instruction ⟨5⟩⟩, ⟨.void, .instruction ⟨6⟩⟩]
  insts := #[⟨.br, [⟨3⟩], .void, ⟨0⟩, ⟨6⟩⟩,
    ⟨.phi, [⟨1⟩, ⟨2⟩, ⟨8⟩, ⟨3⟩], .int .w32, ⟨1⟩, ⟨7⟩⟩,
    ⟨.phi, [⟨5⟩, ⟨2⟩, ⟨7⟩, ⟨3⟩], .int .w32, ⟨1⟩, ⟨8⟩⟩,
    ⟨.add, [⟨7⟩, ⟨8⟩], .int .w32, ⟨1⟩, ⟨9⟩⟩, ⟨.cmp .lt, [⟨9⟩, ⟨1⟩], .bool, ⟨1⟩, ⟨10⟩⟩,
    ⟨.condBr, [⟨10⟩, ⟨3⟩, ⟨4⟩], .void, ⟨1⟩, ⟨11⟩⟩, ⟨.ret, [⟨7⟩], .void, ⟨2⟩, ⟨12⟩⟩]
  blocks := #[⟨⟨0⟩, none, [⟨0⟩], ⟨2⟩⟩, ⟨⟨0⟩, none, [⟨1⟩, ⟨2⟩, ⟨3⟩, ⟨4⟩, ⟨5⟩], ⟨3⟩⟩,
    ⟨⟨0⟩, none, [⟨6⟩], ⟨4⟩⟩]
  functions :=
    #[⟨"f", ⟨[.int .w32], .int .w32, false⟩, [⟨1⟩], [⟨0⟩, ⟨1⟩, ⟨2⟩], false, ⟨0⟩⟩]
  globals := #[]

/-- Two phis, two results and two temporaries of the swap make six registers. -/
theorem swapLoop_registers :
    ∃ id s', Runs (lowerFunction ⟨0⟩) ⟨swapLoop, .win64⟩ (.initial "m") (some id) s' ∧
      ∃ A : Assembly ⟨swapLoop, .win64⟩ ⟨0⟩ (.initial "m") s',
        A.machine.nextVReg.toNat = 6 ∧
        (∀ k < 6, ∃! j : Nat, ∃ o, A.machine.operands[j]? = some o ∧
          o.form = .virt ⟨.ofNat k⟩) ∧
        (∀ r, ¬ A.PhiReg r → ¬ A.Temporary r → A.Owns r) ∧ A.KeepsValues := by
  obtain ⟨r, s', hrun, htest⟩ := runs_of_leaves (s := .initial "m")
    (show leaves (lowerFunction ⟨0⟩) ⟨swapLoop, .win64⟩ _ (fun r s => r.isSome &&
      s.output.functions.all fun m => m.nextVReg = 6 ∧ m.operands.size ≤ 2 ^ 32) =
      true by decide +kernel)
  rw [Bool.and_eq_true, Option.isSome_iff_exists] at htest
  obtain ⟨⟨id, rfl⟩, htest⟩ := htest
  obtain ⟨A, -, -, hunique, -, hdiscipline⟩ := lowerFunction_registers hrun
  rw [A.output, List.all_append, Bool.and_eq_true, List.all_cons, Bool.and_eq_true,
    decide_eq_true_eq] at htest
  obtain ⟨-, ⟨hcount, hsmall⟩, -⟩ := htest
  have hcount' : A.machine.nextVReg.toNat = 6 := by rw [hcount]; rfl
  rw [hcount'] at hunique
  exact ⟨id, s', hrun, A, hcount', hunique, hdiscipline hsmall⟩

end InstSelect.Lowering
