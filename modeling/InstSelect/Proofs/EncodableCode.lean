import InstSelect.Proofs.RegisterDiscipline

/-!
# Immediates have an encoding

An x86-64 instruction holds an immediate in a sign-extended 32-bit field; only a move to a
register has room for 64 bits, and a shift looks at the low bits of its count alone.
Constants, offsets, sizes and the values that come into phis may be any 64-bit word, so
wherever one is needed elsewhere it goes through a register.
-/

namespace InstSelect.Machine

theorem mem_withCopies {copies insts : List Inst} {i : Inst}
    (h : i ∈ withCopies copies insts) :
    i ∈ copies ∨ i ∈ insts := by
  rw [withCopies, List.mem_append, List.mem_append] at h
  rcases h with (h | h) | h
  · exact .inr ((List.takeWhile_sublist _).subset h)
  · exact .inl h
  · exact .inr ((List.dropWhile_sublist _).subset h)

/--
The operands of an instruction exist, and those that are immediates have an encoding.
-/
def Function.Encodes (m : Function) (i : Inst) : Prop :=
  ∃ os, m.Operands i.operands os ∧ Code.encodable ⟨i.op, os⟩ = true

end InstSelect.Machine

namespace InstSelect.Lowering

variable {env : Env} {func : IR.FuncId} {s s' : State} {m : Machine.Function}
  {n n' : Nat} {segs : List Segment} {mb : Machine.BlockId} {i : Machine.Inst}

theorem Threaded.encodable (h : Threaded env m n segs n') :
    ∀ seg ∈ segs, ∀ i ∈ seg.insts, m.Encodes i := by
  induction h with
  | nil => simp
  | phi inst opcode empty bound register number after _ ih =>
    exact List.forall_mem_cons.mpr ⟨by simp [empty], ih⟩
  | code inst opcode decodes tidy after _ ih =>
    refine List.forall_mem_cons.mpr ⟨fun i hi => ?_, ih⟩
    obtain ⟨c, hc, hop, hos⟩ :=
      exists_code (Machine.Function.decode_eq_some.mp decodes) hi
    exact ⟨c.operands, hos, hop ▸ tidy.encodable c hc⟩

namespace Assembly

variable (A : Assembly env func s s')

/-- Copies go to registers, so they may carry any immediate. -/
theorem encodable_of_copies (hsmall : A.machine.operands.size ≤ 2 ^ 32)
    (hi : i ∈ A.copies mb) : A.machine.Encodes i := by
  obtain ⟨_, d, -, -, -, -, hd, -⟩ := A.filling_code
  obtain ⟨c, hc, hg, hm⟩ := A.copying_grown hd
  have hoperands : c.machine.operands.toList <+: A.machine.operands.toList :=
    hm ▸ List.prefix_refl _
  have hregister : ∀ {o : Machine.Operand}, (∃ r, o.form = .virt r) →
      o.isRegister = true := by
    rintro o ⟨r, hform⟩
    rw [Machine.Operand.isRegister, hform]
  have hplacing :=
    A.placing (P := (·.isRegister = true))
      (fun o ho => hregister (ho.imp fun _ => And.left))
    (A.awaited.writable fun _ _ _ _ _ _ _ _ _ hr => hregister hr)
  obtain ⟨dst, src, d, o, rfl, hd, ho, haccepts, hdst⟩ := hplacing.copies mb i hi
  obtain ⟨d', hd', hreg⟩ := hdst (.of_initial hc.current hoperands hsmall)
  cases hd.unique hd'
  refine ⟨[d, o],
    .cons (hd.finished hc.current hoperands)
    (.cons (ho.finished hc.current hoperands) .nil), ?_⟩
  refine Machine.Code.encodable_of_accepts haccepts fun hwide _ _ heq => ?_
  cases heq
  exact .inl ⟨o.copyOp.eq_mov (defines_copyOp o) hwide, hreg⟩

/-- What a block holds before the copies comes from the segments. -/
theorem encodable_of_filled (hsmall : A.machine.operands.size ≤ 2 ^ 32)
    (hi : i ∈ A.filled.instsOf mb) : A.machine.Encodes i := by
  obtain ⟨c, hc, hm, -⟩ := settled_of_beginFunction A.opening
  have hblank : Blank A.opened c :=
    fun mb _ => by simp [State.instsOf, hc.current, hm.blocks]
  obtain ⟨d, hd, -, hlayout, -, hblank', -, hparts⟩ := A.filling.code hc hblank
  by_cases hmb : mb ∈ d.machine.layout
  · rw [hlayout, hm.layout, List.nil_append] at hmb
    obtain ⟨p, hp, rfl⟩ := List.mem_map.mp hmb
    rw [(hparts p hp).2] at hi
    obtain ⟨seg, hseg, hi⟩ := List.mem_flatMap.mp hi
    exact (A.threaded hsmall).encodable seg (List.mem_flatMap.mpr ⟨p, hp, hseg⟩) i hi
  · rw [hblank' mb hmb] at hi
    cases hi

end Assembly

/--
In every block of a function that lowers, the immediates of every instruction have an
encoding, as long as operand ids tell its operands apart.
-/
theorem lowerFunction_encodes {id : Machine.FuncId}
    (h : Runs (lowerFunction func) env s (some id) s') :
    ∃ m, s'.output.functions = s.output.functions ++ [m] ∧ (m.operands.size ≤ 2 ^ 32 →
      ∀ (mb : Machine.BlockId) blk, m.blocks[mb.index.toNat]? = some blk →
        ∀ i ∈ blk.insts, m.Encodes i) := by
  obtain ⟨A⟩ := exists_assembly h
  refine ⟨A.machine, A.output, fun hsmall mb blk hblk i hi => ?_⟩
  obtain ⟨c, hc, hm⟩ := A.finished
  have hinsts : A.copied.instsOf mb = blk.insts := by
    rw [hm] at hblk
    rw [State.instsOf, hc, Option.bind_some, hblk]
    rfl
  rw [← hinsts, A.placed] at hi
  rcases Machine.mem_withCopies hi with hi | hi
  · exact A.encodable_of_copies hsmall hi
  · exact A.encodable_of_filled hsmall hi

/--
A function that needs one constant of 41 bits in a sum, a store, a phi, a shift and,
first, a comparison.
-/
def wideConstant : IR.Module where
  name := "m"
  values := #[⟨.ptr (.function [.int .w64, .ptr (.int .w64)] (.int .w64) false),
    .function ⟨0⟩⟩,
    ⟨.int .w64, .argument ⟨0⟩ 0⟩, ⟨.ptr (.int .w64), .argument ⟨0⟩ 1⟩,
    ⟨.void, .block ⟨0⟩⟩, ⟨.void, .block ⟨1⟩⟩,
    ⟨.int .w64, .constant (.int (2 ^ 40))⟩, ⟨.int .w64, .instruction ⟨0⟩⟩,
    ⟨.void, .instruction ⟨1⟩⟩,
    ⟨.void, .instruction ⟨2⟩⟩, ⟨.int .w64, .instruction ⟨3⟩⟩,
    ⟨.int .w64, .instruction ⟨4⟩⟩, ⟨.bool, .instruction ⟨5⟩⟩, ⟨.void, .instruction ⟨6⟩⟩]
  insts := #[⟨.add, [⟨1⟩, ⟨5⟩], .int .w64, ⟨0⟩, ⟨6⟩⟩,
    ⟨.store, [⟨5⟩, ⟨2⟩], .void, ⟨0⟩, ⟨7⟩⟩,
    ⟨.br, [⟨4⟩], .void, ⟨0⟩, ⟨8⟩⟩, ⟨.phi, [⟨5⟩, ⟨3⟩], .int .w64, ⟨1⟩, ⟨9⟩⟩,
    ⟨.shl, [⟨9⟩, ⟨5⟩], .int .w64, ⟨1⟩, ⟨10⟩⟩, ⟨.cmp .lt, [⟨5⟩, ⟨10⟩], .bool, ⟨1⟩, ⟨11⟩⟩,
    ⟨.ret, [⟨10⟩], .void, ⟨1⟩, ⟨12⟩⟩]
  blocks := #[⟨⟨0⟩, none, [⟨0⟩, ⟨1⟩, ⟨2⟩], ⟨3⟩⟩, ⟨⟨0⟩, none, [⟨3⟩, ⟨4⟩, ⟨5⟩, ⟨6⟩], ⟨4⟩⟩]
  functions :=
    #[⟨"f", ⟨[.int .w64, .ptr (.int .w64)], .int .w64, false⟩, [⟨1⟩, ⟨2⟩], [⟨0⟩, ⟨1⟩],
      false, ⟨0⟩⟩]
  globals := #[]

/-- The constant is an operand of the code, and none of its uses is out of range. -/
theorem wideConstant_encodes :
    ∃ id s', Runs (lowerFunction ⟨0⟩) ⟨wideConstant, .win64⟩ (.initial "m") (some id) s' ∧
      ∃ m, s'.output.functions = [m] ∧ (∃ o ∈ m.operands, o.narrow = false) ∧
        ∀ (mb : Machine.BlockId) blk, m.blocks[mb.index.toNat]? = some blk →
          ∀ i ∈ blk.insts, m.Encodes i := by
  obtain ⟨r, s', hrun, htest⟩ := runs_of_leaves (s := .initial "m")
    (show leaves (lowerFunction ⟨0⟩) ⟨wideConstant, .win64⟩ _ (fun r s => r.isSome &&
      s.output.functions.all fun m => m.operands.size ≤ 2 ^ 32 ∧
      ∃ o ∈ m.operands, o.narrow = false) = true by
      decide +kernel)
  rw [Bool.and_eq_true, Option.isSome_iff_exists] at htest
  obtain ⟨⟨id, rfl⟩, htest⟩ := htest
  obtain ⟨m, hm, hencodes⟩ := lowerFunction_encodes hrun
  rw [hm, List.all_append, Bool.and_eq_true, List.all_cons, Bool.and_eq_true,
    decide_eq_true_eq] at htest
  obtain ⟨-, ⟨hsmall, hwide⟩, -⟩ := htest
  exact ⟨id, s', hrun, m, hm, hwide, hencodes hsmall⟩

end InstSelect.Lowering
