import InstSelect.Proofs.Sessions

/-!
# Argument registers survive every instruction

Selected code uses the registers of the calling convention freely, and the incoming
arguments live in some of them for as long as the function runs. Divisions, shifts by a
variable count and calls therefore save the arguments they endanger and reload them; every
other instruction computes in virtual registers. So the code of any single instruction,
returns apart, can be run without losing an argument.
-/

namespace InstSelect.Lowering

open IR (InstId Inst)
open Machine (Storage PhysReg Host Cpu Exit)

variable {env : Env} {s s' : State}

/--
Whatever instruction is lowered, at whatever point of the lowering of a defined function,
the code it appends leaves the register of each parameter as it was, at the width of the
parameter's class. Only a division can fail to run.
-/
theorem lowerInst_keeps_arguments {func : IR.FuncId} {f : IR.Function} {id : InstId}
    {i : Inst} {c : Current} (habi : env.abi = .win64)
    (hfunc : env.module.function func = .ok f) (hdef : f.isExternal = false)
    (hs : Reached env func s) (hinst : env.module.inst id = .ok i)
    (hret : i.opcode ≠ .ret) (hrun : Runs (lowerInst id) env s () s')
    (hc : s'.current = some c) (hsmall : c.machine.operands.size ≤ 2 ^ 32) :
    ∃ insts code, Gains s s' insts ∧ c.machine.decode insts = some code ∧
      (∀ (h : Host) (σ : Cpu) (e : Exit), h.abi = .win64 → h.run code σ = some e →
        ∀ (j : Nat) (ty : IR.Ty) (r : PhysReg) (st : Storage),
          f.sig.params[j]? = some ty →
          Abi.win64.argRegisters[j]? = some r → storageOf ty = .ok st →
          (e.cpu.phys r).setWidth st.width = (σ.phys r).setWidth st.width) ∧
      (dividesOp i.opcode = false → ∀ (h : Host) (σ : Cpu), (h.run code σ).isSome) := by
  obtain ⟨sts, d, hsession⟩ := hs.session habi hfunc hdef
  obtain ⟨t, ⟨code, hpath, htame⟩, hbinds⟩ := lowerInst_tamely habi hinst hret hrun
  have ht : t.current = some c := by rw [← hbinds.current, hc]
  have hwithin := within_arena ht hsmall
  have htame' := htame _ _ hwithin (hsession.arguments (hpath.within hwithin))
  obtain ⟨insts, hgains, hdecodes⟩ := hpath.gains ht
  refine ⟨insts, code, hgains.of_current hbinds.current,
    Machine.Function.decode_eq_some.mpr hdecodes, ?_, ?_⟩
  · intro h σ e hhost hexec j ty r st hty hr hst
    have hkept := htame'.preserves (placed_incoming sts) hhost hexec
    exact hkept.args ⟨j, r, st⟩ (hsession.mem_incoming hty hr hst)
  · intro hdivides h σ
    rw [hdivides] at htame'
    exact Machine.Host.run_isSome hpath.accepts htame'.divides_eq_false σ

/-- A function of two parameters whose second one, in `rdx`, is divided by itself. -/
def selfDivision : IR.Module where
  name := "m"
  values := #[⟨.ptr (.function [.int .w64, .int .w32] (.int .w32) false), .function ⟨0⟩⟩,
    ⟨.int .w64, .argument ⟨0⟩ 0⟩, ⟨.int .w32, .argument ⟨0⟩ 1⟩, ⟨.void, .block ⟨0⟩⟩,
    ⟨.int .w32, .instruction ⟨0⟩⟩]
  insts := #[⟨.div, [⟨2⟩, ⟨2⟩], .int .w32, ⟨0⟩, ⟨4⟩⟩]
  blocks := #[⟨⟨0⟩, none, [⟨0⟩], ⟨3⟩⟩]
  functions :=
    #[⟨"f", ⟨[.int .w64, .int .w32], .int .w32, false⟩, [⟨1⟩, ⟨2⟩], [⟨0⟩], false, ⟨0⟩⟩]
  globals := #[]

/--
Here the argument in `rdx` is the divisor's home and the division's clobbered register at
once.
-/
theorem selfDivision_keeps_rdx :
    ∃ s s' c insts code, Reached ⟨selfDivision, .win64⟩ ⟨0⟩ s ∧
      Runs (lowerInst ⟨0⟩) ⟨selfDivision, .win64⟩ s () s' ∧ s'.current = some c ∧
      c.machine.operands.size ≤ 2 ^ 32 ∧ Gains s s' insts ∧
        c.machine.decode insts = some code ∧
      ∀ (h : Host) (σ : Cpu) (e : Exit), h.abi = .win64 → h.run code σ = some e →
        (e.cpu.phys .rdx).setWidth 32 = (σ.phys .rdx).setWidth 32 := by
  obtain ⟨_, s₁, h₁, r₁⟩ := runs_of_leaves (s := .initial "m")
    (show leaves (beginFunction ⟨0⟩) ⟨selfDivision, .win64⟩ _ (fun _ s =>
      leaves (blockFor ⟨0⟩) ⟨selfDivision, .win64⟩ s fun b s =>
      leaves (setInsertionBlock b) ⟨selfDivision, .win64⟩ s fun _ s =>
      leaves (lowerInst ⟨0⟩) ⟨selfDivision, .win64⟩ s fun _ s =>
      s.current.any (fun c => c.machine.operands.size ≤ 2 ^ 32)) = true by decide +kernel)
  obtain ⟨b, s₂, h₂, r₂⟩ := runs_of_leaves r₁
  obtain ⟨_, s₃, h₃, r₃⟩ := runs_of_leaves r₂
  obtain ⟨_, s', h₄, r₄⟩ := runs_of_leaves r₃
  obtain ⟨c, hc, hsmall⟩ := (Option.any_eq_true _ _).mp r₄
  rw [decide_eq_true_eq] at hsmall
  have hs := (Reached.opened h₁).entered h₂ h₃
  obtain ⟨insts, code, hgains, hdecode, hkeeps, -⟩ :=
    lowerInst_keeps_arguments rfl rfl rfl hs rfl (by decide) h₄ hc hsmall
  exact ⟨s₃, s', c, insts, code, hs, h₄, hc, hsmall, hgains, hdecode,
    fun h σ e hhost hrun =>
    hkeeps h σ e hhost hrun 1 _ _ _ rfl rfl rfl⟩

end InstSelect.Lowering
