import InstSelect.Proofs.ArgumentRegisters
import InstSelect.Proofs.SequenceTotality

/-!
# Straight-line integer code keeps its meaning

Lowering a sequence of integer instructions appends one piece of code after the other, and
each piece computes its instruction from operands that the pieces before it left in place.
Running the whole code therefore runs the sequence.
-/

namespace InstSelect.Lowering

open IR (InstId Inst World Results)
open Machine (Storage PhysReg Arena Host Cpu)

variable {env : Env} {s s' t : State} {u : PUnit} {ids : List InstId}

theorem Carried.towards {A : Arena} {final : State} (h : Carried s t)
    (ht : Towards A final t) :
    Towards A final s := by
  refine ⟨fun c hc => ?_, fun v id hv => ht.values v id (h.values v id hv)⟩
  obtain ⟨c', hc', hprefix⟩ := h.current c hc
  exact hprefix.trans (ht.within c' hc')

theorem lowerInst_carried {id : InstId} {u : Unit} (habi : env.abi = .win64)
    (h : Runs (lowerInst id) env s u s') : Carried s s' := by
  obtain ⟨i, t, code, -, hpath, hbinds⟩ := lowerInst_path habi h
  exact (Carried.of_path hpath).trans (.of_binds hbinds)

theorem lowerInsts_carried (habi : env.abi = .win64)
    (h : Runs (ids.forM lowerInst) env s u s') : Carried s s' := by
  induction ids generalizing s with
  | nil =>
    obtain ⟨-, rfl⟩ := runs_pure.mp h
    exact .refl s
  | cons id ids ih =>
    obtain ⟨u, t, hfirst, hrest⟩ := runs_bind.mp h
    exact (lowerInst_carried habi hfirst).trans (ih hrest)

section

variable {A : Arena} {h : Host} {σ : Cpu} {W : World} {ρ ρ' : Results} {func : IR.FuncId}
  {f : IR.Function} {sts : List Storage} {c : Current} {final : State}

/-- The code of a sequence keeps arguments and results in agreement. -/
theorem lowerInsts_agrees {c' : Current} (hset : Setting env h A W func f final)
    (hs : Session env func f sts s c) (ht : Towards A final s')
    (hagrees : Agrees env h A (incoming sts) W s σ ρ)
    (hrun : Runs (ids.forM lowerInst) env s u s') (hc' : s'.current = some c')
    (heval : env.module.run? W ids ρ = some ρ') :
    ∃ insts code τ, Gains s s' insts ∧ c'.machine.Decodes insts code ∧
      h.run code σ = some (.falls τ) ∧ Agrees env h A (incoming sts) W s' τ ρ' := by
  induction ids generalizing s σ ρ c with
  | nil =>
    obtain ⟨-, rfl⟩ := runs_pure.mp hrun
    cases heval
    exact ⟨[], [], σ, .of_blocks hc' hc' rfl fun _ => rfl, .nil, rfl, hagrees⟩
  | cons id ids ih =>
    obtain ⟨u, t, hfirst, hrest⟩ := runs_bind.mp hrun
    obtain ⟨i, w, x, hi, hw, hx, heval⟩ := IR.Module.of_run?_cons heval
    have hcarried := lowerInsts_carried hset.abi hrest
    obtain ⟨p, code1, σ1, hpath, hcurrent, hexec1, hagrees1⟩ :=
      lowerInst_agrees hset hs (hcarried.towards ht) hagrees hfirst hi hw hx
    obtain ⟨d, hd⟩ := hs.lowerInst hset.abi hfirst
    obtain ⟨insts1, hgains1, hdecodes1⟩ := hpath.gains (hcurrent ▸ hd.current)
    obtain ⟨insts2, code2, τ, hgains2, hdecodes2, hexec2, hagrees2⟩ :=
      ih hd hagrees1 hrest heval
    obtain ⟨c'', hc'', hprefix⟩ := hcarried.current d hd.current
    cases hc'.symm.trans hc''
    refine ⟨insts1 ++ insts2, code1 ++ code2, τ,
      (hgains1.of_current hcurrent).trans hgains2,
      List.rel_append (hdecodes1.mono hprefix) hdecodes2, ?_, hagrees2⟩
    rw [Machine.Host.run_append_of_falls hexec1, hexec2]

end

/-- Arguments are in the registers of the convention, at the widths of their classes. -/
def ArgumentsIn (f : IR.Function) (W : World) (σ : Cpu) : Prop :=
  ∀ (j : Nat) (ty : IR.Ty) (r : PhysReg) (st : Storage), f.sig.params[j]? = some ty →
    Abi.win64.argRegisters[j]? = some r → storageOf ty = .ok st →
    (σ.phys r).setWidth st.width = (W.argument j).setWidth st.width

/--
The operand of each instruction of a sequence reads, at its width, the result of the
instruction.
-/
def ReadsResults (env : Env) (h : Host) (τ : Cpu) (s : State) (c : Current)
    (ids : List InstId) (ρ : Results) : Prop :=
  ∀ (id : InstId) (i : Inst), id ∈ ids → env.module.inst id = .ok i → i.opcode ≠ .alloca →
    ∃ x oid o, ρ i.value = some x ∧ s.values.find? i.value = some oid ∧
      c.machine.operand oid = .ok o ∧ i.ty.width? = some o.width ∧
      (h.read τ o).setWidth o.width = x.setWidth o.width

/--
A sequence of integer instructions that was lowered, at whatever point of the lowering of
a defined function, has code that runs from every machine state with the arguments in
their registers, and leaves the results in the operands of the instructions.
-/
theorem lowerInsts_computes {func : IR.FuncId} {f : IR.Function} {c : Current}
    {h : Host} {σ : Cpu} {W : World} {ρ : Results} (hlinked : env.module.Linked)
    (habi : env.abi = .win64) (hhost : h.abi = .win64)
    (hfunc : env.module.function func = .ok f) (hdef : f.isExternal = false)
    (hs : Reached env func s) (hrun : Runs (ids.forM lowerInst) env s () s')
    (hc : s'.current = some c) (hsmall : c.machine.operands.size ≤ 2 ^ 32)
    (hplacement : Placement env h (c.arena hsmall) s' W) (hargs : ArgumentsIn f W σ)
    (heval : env.module.run? W ids (fun _ => none) = some ρ) :
    ∃ insts code τ, Gains s s' insts ∧ c.machine.decode insts = some code ∧
      h.run code σ = some (.falls τ) ∧ ReadsResults env h τ s' c ids ρ := by
  obtain ⟨sts, d, hsession⟩ := hs.session habi hfunc hdef
  have hset : Setting env h (c.arena hsmall) W func f s' :=
    ⟨habi, hhost, hlinked, hfunc, hplacement⟩
  have ht : Towards (c.arena hsmall) s' s' := ⟨within_arena hc hsmall, fun _ _ hv => hv⟩
  have hagrees : Agrees env h (c.arena hsmall) (incoming sts) W s σ fun _ => none := by
    refine ⟨fun a ha => ?_, fun v x _ hx => by cases hx⟩
    obtain ⟨ty, hty, hr, hst⟩ := hsession.of_mem_incoming ha
    exact hargs a.index ty a.reg a.storage hty hr hst
  obtain ⟨insts, code, τ, hgains, hdecodes, hexec, hagrees'⟩ :=
    lowerInsts_agrees hset hsession ht hagrees hrun hc heval
  refine ⟨insts, code, τ, hgains, Machine.Function.decode_eq_some.mpr hdecodes, hexec, ?_⟩
  intro id i hid hi hobject
  obtain ⟨x, hx⟩ := Option.isSome_iff_exists.mp (IR.Module.run?_defines heval hid hi)
  have hleaf : env.module.leaf? W i.value = none := by
    simp [IR.Module.leaf?, value_of_inst hset.linked hi, hi, hobject]
  obtain ⟨oid, o, w, hfind, hget, hreg, hw, hheld, hvalue⟩ :=
    hagrees'.results i.value x hleaf hx
  obtain rfl := hheld.source.width
  have hdirect : o.needsAddress = false := Machine.Operand.needsAddress_of_isRegister hreg
  refine ⟨x, oid, o, hx, hfind, operand_of_arena hget, ?_, ?_⟩
  · rwa [IR.Module.width?, value_of_inst hset.linked hi] at hw
  · rwa [Machine.value_of_direct hdirect] at hvalue

/--
A sequence of integer instructions with a meaning, met at whatever point of the lowering
of a defined function, always lowers. Its code runs from every machine state with the
arguments in their registers, and afterwards the operand of each instruction reads, at the
width of its class, the value of the instruction. Operands are numbered with 32 bits, so
there has to be room for those of the sequence; there has to be memory too.
-/
theorem straightLine_computes {func : IR.FuncId} {f : IR.Function} {ids : List InstId}
    {c : Current} {block : Machine.BlockId} {W : World} {ρ : Results}
    (hbuilt : IR.Built env.module) (hvalues : env.module.values.size ≤ 2 ^ 32)
    (habi : env.abi = .win64) (hmemory : env.allocator.Ample)
    (hfunc : env.module.function func = .ok f) (hdef : f.isExternal = false)
    (hs : Reached env func s) (hc : s.current = some c) (hblock : c.block = some block)
    (hroom : s.size + 12 * ids.length < 2 ^ 32) (hnodup : ids.Nodup)
    (hinteger : ∀ inst ∈ ids, ∀ i, env.module.inst inst = .ok i → i.opcode ≠ .alloca)
    (hsources : ∀ inst ∈ ids, ∀ i, env.module.inst inst = .ok i →
      ∀ v ∈ i.operands, Source env func s ids v)
    (hfresh : ∀ inst ∈ ids, ∀ i, env.module.inst inst = .ok i →
      s.values.find? i.value = none)
    (heval : env.module.run? W ids (fun _ => none) = some ρ) :
    ∃ s' c', Runs (ids.forM lowerInst) env s () s' ∧ s'.current = some c' ∧
      ∃ hsmall : c'.machine.operands.size ≤ 2 ^ 32, ∀ (h : Host) (σ : Cpu),
        h.abi = .win64 →
        Placement env h (c'.arena hsmall) s' W → ArgumentsIn f W σ →
        ∃ insts code τ, Gains s s' insts ∧ c'.machine.decode insts = some code ∧
          h.run code σ = some (.falls τ) ∧ ReadsResults env h τ s' c' ids ρ := by
  let J : Job := ⟨env, func, f, habi, hmemory, hbuilt.linked hvalues, hfunc⟩
  have hready : Ready J s c := by
    obtain ⟨sts, d, hsession⟩ := hs.session habi hfunc hdef
    cases hc.symm.trans hsession.current
    exact ⟨⟨sts, hsession⟩, ⟨block, hblock⟩, hs.counted habi hfunc hdef hc⟩
  have hdefined : Defined J s fun _ => none := fun v x hx => by cases hx
  obtain ⟨s', c', hrun, hc', hsize⟩ := lowerInsts_evaluated_total hready hinteger
    (List.Subset.refl ids) hsources (fun _ _ hv => hv) hdefined hnodup hfresh heval hroom
  have hsmall : c'.machine.operands.size ≤ 2 ^ 32 := by
    have := State.size_eq hc'.current
    omega
  exact ⟨s', c', hrun, hc'.current, hsmall, fun h σ hhost hplacement hargs =>
    lowerInsts_computes J.linked habi hhost hfunc hdef hs hrun hc'.current hsmall
      hplacement hargs heval⟩

/--
A function that shifts its first argument by the second, and compares a constant with the
result.
-/
def shiftedBound : IR.Module where
  name := "m"
  values := #[⟨.ptr (.function [.int .w32, .int .w8] .bool false), .function ⟨0⟩⟩,
    ⟨.int .w32, .argument ⟨0⟩ 0⟩, ⟨.int .w8, .argument ⟨0⟩ 1⟩, ⟨.void, .block ⟨0⟩⟩,
    ⟨.int .w32, .constant (.int 20)⟩, ⟨.int .w32, .instruction ⟨0⟩⟩,
    ⟨.bool, .instruction ⟨1⟩⟩]
  insts := #[⟨.shl, [⟨1⟩, ⟨2⟩], .int .w32, ⟨0⟩, ⟨5⟩⟩,
    ⟨.cmp .lt, [⟨4⟩, ⟨5⟩], .bool, ⟨0⟩, ⟨6⟩⟩]
  blocks := #[⟨⟨0⟩, none, [⟨0⟩, ⟨1⟩], ⟨3⟩⟩]
  functions :=
    #[⟨"f", ⟨[.int .w32, .int .w8], .bool, false⟩, [⟨1⟩, ⟨2⟩], [⟨0⟩], false, ⟨0⟩⟩]
  globals := #[]

theorem built_shiftedBound : IR.Built shiftedBound := by
  have h := (IR.Built.empty "m").addFunction "f" ⟨[.int .w32, .int .w8], .bool,
    false⟩ false
  have h := h.block ⟨0⟩ none rfl
  have h := h.constant (.int .w32) (.int 20)
  have h := h.inst ⟨0⟩ .shl [⟨1⟩, ⟨2⟩] (.int .w32) rfl
  have h := h.inst ⟨0⟩ (.cmp .lt) [⟨4⟩, ⟨5⟩] .bool rfl
  exact h

/-- The arguments 6 and 2. -/
def shiftedWorld : World :=
  ⟨fun j => if j = 0 then 6 else 2, fun _ => 0, fun _ => 0, fun _ => 0⟩

/--
The shifted argument is in the register that holds the count, and the compared sides are
swapped.
-/
theorem shiftedBound_computes :
    ∃ s ρ s' c', Reached ⟨shiftedBound, .win64⟩ ⟨0⟩ s ∧
      shiftedBound.run? shiftedWorld [⟨0⟩, ⟨1⟩] (fun _ => none) = some ρ ∧
        ρ ⟨6⟩ = some 1 ∧
      Runs ([⟨0⟩, ⟨1⟩].forM lowerInst) ⟨shiftedBound, .win64⟩ s () s' ∧
        s'.current = some c' ∧
      ∃ hsmall : c'.machine.operands.size ≤ 2 ^ 32, ∀ (h : Host) (σ : Cpu),
        h.abi = .win64 →
        Placement ⟨shiftedBound, .win64⟩ h (c'.arena hsmall) s' shiftedWorld →
        ArgumentsIn ⟨"f", ⟨[.int .w32, .int .w8], .bool, false⟩, [⟨1⟩, ⟨2⟩], [⟨0⟩],
          false, ⟨0⟩⟩ shiftedWorld σ →
        ∃ insts code τ, Gains s s' insts ∧ c'.machine.decode insts = some code ∧
          h.run code σ = some (.falls τ) ∧
          ReadsResults ⟨shiftedBound, .win64⟩ h τ s' c' [⟨0⟩, ⟨1⟩] ρ := by
  obtain ⟨_, s₁, h₁, r₁⟩ := runs_of_leaves (s := .initial "m")
    (show leaves (beginFunction ⟨0⟩) ⟨shiftedBound, .win64⟩ _ (fun _ s =>
      leaves (blockFor ⟨0⟩) ⟨shiftedBound, .win64⟩ s fun b s =>
      leaves (setInsertionBlock b) ⟨shiftedBound, .win64⟩ s fun _ s =>
      s.current.any (·.block.isSome) && decide (s.size < 10) &&
        (s.values.find? ⟨5⟩).isNone && (s.values.find? ⟨6⟩).isNone) =
        true by decide +kernel)
  obtain ⟨b, s₂, h₂, r₂⟩ := runs_of_leaves r₁
  obtain ⟨_, s, h₃, r₃⟩ := runs_of_leaves r₂
  simp only [Bool.and_eq_true, Option.any_eq_true, Option.isSome_iff_exists,
    decide_eq_true_eq, Option.isNone_iff_eq_none] at r₃
  obtain ⟨⟨⟨⟨c, hc, block, hblock⟩, hsize⟩, hfirst⟩, hsecond⟩ := r₃
  have hs := (Reached.opened h₁).entered h₂ h₃
  have heval : shiftedBound.run? shiftedWorld [⟨0⟩, ⟨1⟩] (fun _ => none) =
      some ((Results.set (fun _ => none) ⟨5⟩ 24).set ⟨6⟩ 1) := rfl
  have hcases : ∀ inst ∈ ([⟨0⟩, ⟨1⟩] : List InstId), ∀ i, shiftedBound.inst inst = .ok i →
      i = ⟨.shl, [⟨1⟩, ⟨2⟩], .int .w32, ⟨0⟩, ⟨5⟩⟩ ∨
      i = ⟨.cmp .lt, [⟨4⟩, ⟨5⟩], .bool, ⟨0⟩, ⟨6⟩⟩ := by
    intro inst hinst i hi
    rcases List.mem_cons.mp hinst with rfl | hinst
    · cases hi
      exact .inl rfl
    · cases List.mem_singleton.mp hinst
      cases hi
      exact .inr rfl
  have hroom : s.size + 12 * ([⟨0⟩, ⟨1⟩] : List InstId).length < 2 ^ 32 := by
    rw [show ([⟨0⟩, ⟨1⟩] : List InstId).length = 2 from rfl]
    omega
  obtain ⟨s', c', hrun, hc', hrest⟩ :=
    straightLine_computes built_shiftedBound (by decide) rfl
    Machine.Allocator.host_ample rfl rfl hs hc hblock hroom (by decide)
    (fun inst hinst i hi => by rcases hcases inst hinst i hi with rfl | rfl <;> decide)
    (fun inst hinst i hi v hv => by
      rcases hcases inst hinst i hi with rfl | rfl
      · rcases List.mem_cons.mp hv with rfl | hv
        · exact .argument _ 0 rfl
        · cases List.mem_singleton.mp hv
          exact .argument _ 1 rfl
      · rcases List.mem_cons.mp hv with rfl | hv
        · exact .constant _ 20 rfl
        · cases List.mem_singleton.mp hv
          exact .result _ ⟨0⟩ rfl (by decide))
    (fun inst hinst i hi =>
      by rcases hcases inst hinst i hi with rfl | rfl <;> assumption) heval
  exact ⟨s, _, s', c', hs, heval, rfl, hrun, hc', hrest⟩

end InstSelect.Lowering
