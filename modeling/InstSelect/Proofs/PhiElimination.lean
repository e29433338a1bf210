import InstSelect.Proofs.MovingBlocks

/-!
# Phi elimination and whole runs

The copies of phis stand before the instructions that leave their block, so they are made
whichever way the block is left. If no phi of one successor is live in another, that does
no harm: a run of the finished function goes through the machine blocks of the blocks that
the run of its source goes through, the register of each phi that is still read has the
phi's word, and the function returns what its source returns. If a phi is live in another
successor, its word is lost on the way there.
-/

namespace InstSelect.Machine

/-- The block that comes next in the layout. -/
def Function.next? (m : Function) (b : BlockId) : Option BlockId :=
  (m.layout.dropWhile (· ≠ b)).tail.head?

/-- A run from the beginning of a block reaches a return, in a state. -/
inductive Function.Returns (m : Function) (h : Host) : BlockId → Cpu → Cpu → Prop
  | now {b : BlockId} {code : List Code} {σ τ : Cpu} (code_eq : m.codeOf b = some code)
      (run : h.run code σ = some (.returns τ)) : Returns m h b σ τ
  | jump {b c : BlockId} {code : List Code} {σ τ υ : Cpu}
      (code_eq : m.codeOf b = some code) (run : h.run code σ = some (.jumps c τ))
      (rest : Returns m h c τ υ) :
      Returns m h b σ υ
  | fall {b c : BlockId} {code : List Code} {σ τ υ : Cpu}
      (code_eq : m.codeOf b = some code) (run : h.run code σ = some (.falls τ))
      (next : m.next? b = some c) (rest : Returns m h c τ υ) :
      Returns m h b σ υ

/-- A function returns in one state at most. -/
theorem Function.Returns.unique {m : Function} {h : Host} {b : BlockId} {σ τ τ' : Cpu}
    (hτ : m.Returns h b σ τ) (hτ' : m.Returns h b σ τ') : τ = τ' := by
  induction hτ with
  | now code_eq run =>
    cases hτ' with
    | now code_eq' run' =>
      cases code_eq.symm.trans code_eq'
      cases run.symm.trans run'
      rfl
    | jump code_eq' run' | fall code_eq' run' =>
      cases code_eq.symm.trans code_eq'
      cases run.symm.trans run'
  | jump code_eq run _ ih =>
    cases hτ' with
    | now code_eq' run' | fall code_eq' run' =>
      cases code_eq.symm.trans code_eq'
      cases run.symm.trans run'
    | jump code_eq' run' rest' =>
      cases code_eq.symm.trans code_eq'
      cases run.symm.trans run'
      exact ih rest'
  | fall code_eq run next _ ih =>
    cases hτ' with
    | now code_eq' run' | jump code_eq' run' =>
      cases code_eq.symm.trans code_eq'
      cases run.symm.trans run'
    | fall code_eq' run' next' rest' =>
      cases code_eq.symm.trans code_eq'
      cases run.symm.trans run'
      cases next.symm.trans next'
      exact ih rest'

end InstSelect.Machine

namespace InstSelect.Lowering

open IR (ValueId Inst World Results)
open Machine (Operand Code Move Assigned Host Cpu Fetch)

variable {env : Env} {func : IR.FuncId} {s s' : State}

namespace Assembly

/-- A function that only moves words, and keeps those that are still read. -/
structure Moving (A : Assembly env func s s') : Prop where
  linked : env.module.Linked
  small : A.machine.operands.size ≤ 2 ^ 32
  abi : env.abi = .win64
  isDefined : A.source.isExternal = false
  moves : env.module.MovesWords A.source
  keeps : env.module.KeepsLive A.source

/--
Source and machine agree at the beginning of a block, behind its phis: arguments are in
their registers, and so are the words of the phis that are still read.
-/
structure Agrees (A : Assembly env func s s') (W : World) (ρ : Results) (b : IR.BlockId)
    (σ : Cpu) :
    Prop where
  arguments : ArgumentsIn A.source W σ
  phis : ∀ d ∈ A.source.blocks, ∀ q ∈ env.module.phis d, ∀ x r st, ρ q.value = some x →
    env.module.Live b q.value → A.Located q.value ⟨.virt r, st⟩ →
    (σ.virt r).setWidth st.width = x.setWidth st.width

variable {A : Assembly env func s s'} {W : World} {ρ ρ' : Results} {b c d : IR.BlockId}
  {σ τ : Cpu} {h : Host} {v : ValueId} {o : Operand} {x : BitVec 64} {q : Inst}

theorem Moving.phi_register (hA : A.Moving) (hd : d ∈ A.source.blocks)
    (hq : q ∈ env.module.phis d) :
    ∃ seg ∈ A.segments, ∃ r st, A.Located q.value ⟨.virt r, st⟩ ∧
      PhiAt env A.machine seg r ∧
      st.width = q.ty.bits ∧ r.index.toNat < A.filled.vregs := by
  obtain ⟨seg, hseg, hi, hphi, -⟩ := A.exists_phi hd hq
  obtain ⟨dst, r, st, hdst, hr, hst, hat⟩ := A.phi_located hA.small hseg hi hphi
  exact ⟨seg, hseg, r, st, ⟨dst, hdst, hr⟩, hat, (IR.Ty.bits_eq hst).symm,
    ((A.threaded hA.small).phi_number hseg hat).2⟩

theorem Moving.found (hA : A.Moving) (hv : env.module.AtHand A.source v)
    (ho : A.Located v o) :
    A.Found v o ∧ env.module.bits v = o.width :=
  A.found hA.linked hA.small hA.abi hA.isDefined hv ho

/-- An input of a phi is bound, to an operand as wide as the phi. -/
theorem Moving.input (hA : A.Moving) (hd : d ∈ A.source.blocks)
    (hq : q ∈ env.module.phis d) {z : ValueId × ValueId} (hz : z ∈ q.inputs) :
    ∃ o, A.Located z.1 o ∧ A.Found z.1 o ∧ o.width = q.ty.bits := by
  obtain ⟨o, ho⟩ := A.exists_located hA.small hd hq hz
  obtain ⟨hhand, hwidth⟩ := hA.moves.inputs d hd q hq z hz
  obtain ⟨hfound, hbits⟩ := hA.found hhand ho
  exact ⟨o, ho, hfound, hbits.symm.trans hwidth⟩

/--
What a finished block is made of, and that its copies make the moves to the phis behind it
at once.
-/
theorem Moving.block (hA : A.Moving) (hb : b ∈ A.source.blocks) {i : Inst}
    (hi : env.module.terminator? b = some i) :
    ∃ p last d moves mid, p ∈ A.parts ∧ p.id = A.blockOf b ∧ A.Closing p i last d ∧
      A.machine.Decodes (A.copies p.id) mid ∧ (∀ y, y ∈ moves ↔ A.Moves b y) ∧
      ∀ (h : Host) (σ : Cpu), ∃ τ, h.run mid σ = some (.falls τ) ∧
        Assigned h A.filled.vregs moves σ τ := by
  obtain ⟨p, hp, rfl⟩ : ∃ p ∈ A.parts, p.block = b := List.mem_map.mp (A.blocks ▸ hb)
  obtain ⟨i', last, d, hclosing⟩ := A.closing hA.moves hp
  cases hi.symm.trans hclosing.terminator
  obtain ⟨moves, mid, hmid, hcode, hdst, hmoves⟩ :=
    A.moves_of_part hA.linked hA.small hA.moves.distinct hp
  refine ⟨p, last, d, moves, mid, hp, (A.blockOf_part hp).symm, hclosing, hmid, hmoves,
    hcode.run hdst (fun y hy => ?_) fun y hy => ?_⟩
  · obtain ⟨d, hd, q, hq, z, hz, -, hr, -⟩ := (hmoves y).mp hy
    obtain ⟨seg, -, r, st, hr', -, -, hnumber⟩ := hA.phi_register hd hq
    cases hr.unique hr'
    exact hnumber
  · obtain ⟨d, hd, q, hq, z, hz, -, -, ho⟩ := (hmoves y).mp hy
    obtain ⟨o, ho', hfound, -⟩ := hA.input hd hq hz
    exact ho.unique ho' ▸ hfound.steady

theorem Moving.target (hA : A.Moving) (ho : A.Located v o)
    (hc : env.module.target? v = some c) :
    c ∈ A.source.blocks ∧ o.form = .label (A.blockOf c) :=
  A.target_of_located hA.linked hA.small hA.abi hA.isDefined ho hc

namespace Agrees

/-- The operand of a value that is still read has its word. -/
theorem value (hagrees : A.Agrees W ρ b σ) (hfound : A.Found v o) (ho : A.Located v o)
    (hlive : env.module.Live b v) (hword : env.module.word? W ρ v = some x) :
    (h.value σ o).setWidth o.width = x.setWidth o.width := by
  rw [IR.Module.word?] at hword
  cases hfound with
  | argument param register storage word =>
    rw [word] at hword
    cases hword
    exact hagrees.arguments _ _ _ _ param register storage
  | constant word =>
    rw [word] at hword
    cases hword
    rfl
  | phi block phi value number word =>
    subst value
    rw [word] at hword
    exact hagrees.phis _ block _ phi x _ _ hword hlive ho

/-- What is no register of a phi may change. -/
theorem congr (hA : A.Moving) (hagrees : A.Agrees W ρ b σ) (hphys : τ.phys = σ.phys)
    (hvirt : ∀ seg ∈ A.segments, ∀ r, PhiAt env A.machine seg r → τ.virt r = σ.virt r) :
    A.Agrees W ρ b τ where
  arguments j ty r st hty hr hst := by
    rw [hphys]
    exact hagrees.arguments j ty r st hty hr hst
  phis d hd q hq x r st hx hlive hr := by
    obtain ⟨seg, hseg, r', st', hr', hat, -⟩ := hA.phi_register hd hq
    cases hr.unique hr'
    rw [hvirt seg hseg r hat]
    exact hagrees.phis d hd q hq x r st hx hlive hr

/-- The moves of a block take the machine state to any of the blocks behind it. -/
theorem cross (hA : A.Moving) (hagrees : A.Agrees W ρ b σ) {moves : List Move}
    (hmoves : ∀ y, y ∈ moves ↔ A.Moves b y)
    (hassigned : Assigned h A.filled.vregs moves σ τ) (hb : b ∈ A.source.blocks)
    (hedge : c ∈ env.module.successors b)
    (hcross : env.module.cross? W ρ b c = some ρ') : A.Agrees W ρ' c τ where
  arguments j ty r st hty hr hst := by
    rw [hassigned.phys]
    exact hagrees.arguments j ty r st hty hr hst
  phis d hd q hq x r st hx hlive hr := by
    obtain ⟨hphis, hothers⟩ := IR.Module.cross?_eq_some hA.linked hcross
    obtain ⟨seg, hseg, r', st', hr', hat, hwidth, hnumber⟩ := hA.phi_register hd hq
    cases hr.unique hr'
    by_cases hqc : q ∈ env.module.phis c
    · -- A phi of the block that is entered has the word of its input.
      obtain ⟨v, x', hinput, hword, hx'⟩ := hphis q hqc
      cases hx.symm.trans hx'
      obtain ⟨z, hz, rfl, htarget⟩ := IR.Module.mem_of_input? hinput
      obtain ⟨o, ho, hfound, hsame⟩ := hA.input hd hq hz
      have hmem : (⟨r, st, o⟩ : Move) ∈ moves :=
        (hmoves _).mpr ⟨d, hd, q, hq, z, hz, htarget, hr, ho⟩
      have hmoved := hassigned.moved _ hmem
      have hvalue :=
        hagrees.value (h := h) hfound ho (.input hedge hqc hlive hinput) hword
      rw [hsame, ← hwidth] at hvalue
      exact hmoved.trans hvalue
    · have hother : ∀ q' ∈ env.module.phis c, q'.value ≠ q.value := fun q' hq' heq =>
        hqc (hA.linked.eq_of_value hq' hq heq ▸ hq')
      rw [hothers q.value hother] at hx
      have hold := hagrees.phis d hd q hq x r st hx (.through hedge hlive hother) hr
      by_cases hmoved : ∃ y ∈ moves, y.dst = r
      · -- It is written for another successor, so it must get its own word.
        obtain ⟨y, hy, rfl⟩ := hmoved
        obtain ⟨d', hd', q', hq', z, hz, htarget, hr', ho⟩ := (hmoves y).mp hy
        cases A.phi_value_inj hA.small hd hq hd' hq' hr hr'
        cases hr.unique hr'
        have hsucc := hA.moves.predecessors d' hd' q hq' z hz b htarget
        have hne : c ≠ d' := fun heq => hqc (heq ▸ hq')
        rcases hA.keeps b hb c hedge d' hsucc hne q hq' with hself | hdead
        · have hinput :=
            IR.Module.input?_of_mem (hA.moves.distinct d' hd' q hq') hz htarget
          have hz' : z.1 = q.value := Option.some.inj (hinput.symm.trans hself)
          have hsrc := hassigned.moved y hy
          rw [hz'] at ho
          rw [ho.unique hr'] at hsrc
          exact hsrc.trans hold
        · exact absurd hlive hdead
      · rw [hassigned.others r hnumber fun y hy heq => hmoved ⟨y, hy, heq⟩]
        exact hold

/--
Testing a condition sets the zero flag if its word is zero, and changes nothing that is
still read.
-/
theorem tested (hA : A.Moving) (hagrees : A.Agrees W ρ b σ) (hlive : env.module.Live b v)
    (hword : env.module.word? W ρ v = some x) (hv : env.module.AtHand A.source v)
    (ho : A.Located v o) {om oc : Operand} {xs ys : List Code} {k l n : Nat}
    (hf : Fetch k o om xs l) (hf' : Fetch l om oc ys n)
    (hspares : ∀ seg ∈ A.segments, ∀ r, PhiAt env A.machine seg r →
      ∀ c ∈ xs ++ ys, ¬ c.Writes r)
    (h : Host) :
    ∃ τ, h.run (xs ++ ys ++ [⟨.test, [oc, oc]⟩]) σ = some (.falls τ) ∧ A.Agrees W ρ b τ ∧
      (τ.status.zero = true ↔ x.setWidth (env.module.bits v) = 0) := by
  obtain ⟨hfound, hbits⟩ := hA.found hv ho
  obtain ⟨τ, hrun, hphys, hvirt, hzero⟩ := hf.run_test hf' hfound.direct h σ
  rw [hagrees.value (h := h) hfound ho hlive hword, ← hbits] at hzero
  exact ⟨τ, hrun, hagrees.congr hA hphys fun seg hseg r hr =>
    hvirt r (hspares seg hseg r hr), hzero⟩

/-- A block that is left for another goes there, and the states agree there. -/
theorem goes (hA : A.Moving) (hagrees : A.Agrees W ρ b σ) (hb : b ∈ A.source.blocks)
    (hleave : env.module.depart? W ρ b = some (.goes c))
    (hcross : env.module.cross? W ρ b c = some ρ') (h : Host) :
    c ∈ A.source.blocks ∧ ∃ code τ, A.machine.codeOf (A.blockOf b) = some code ∧
      h.run code σ = some (.jumps (A.blockOf c) τ) ∧ A.Agrees W ρ' c τ := by
  obtain ⟨i, hi, hgoes, hedge⟩ := IR.Module.depart?_goes hleave
  obtain ⟨p, last, d, moves, mid, hp, hid, hclosing, hmid, hmoves, hcopies⟩ :=
    hA.block hb hi
  rw [← hid]
  cases hgoes with
  | br opcode operands target =>
    obtain ⟨o, ho, hcode⟩ := hclosing.code_br hp hA.small hmid opcode operands
    obtain ⟨hc, hlabel⟩ := hA.target ho target
    obtain ⟨τ, hrun, hassigned⟩ := hcopies h σ
    refine ⟨hc, _, τ, hcode, ?_, hagrees.cross hA hmoves hassigned hb hedge hcross⟩
    rw [Host.run_append_of_falls hrun, Host.run_singleton, Machine.step_jmp hlabel]
  | @condBr v x y word opcode operands word_eq target =>
    obtain ⟨o, om, oc, ox, oy, xs, ys, k, l, n, ho, hf, hf', hx, hy, hjcc, hspares,
        hcode⟩ :=
      hclosing.code_condBr hp hA.small hmid opcode operands
    have hhand := hA.moves.conditions _ hb _ hi opcode v (by simp [operands])
    obtain ⟨υ, hrun, hagrees', hzero⟩ :=
      hagrees.tested hA (.used hi (by simp [operands])) word_eq hhand ho hf hf' hspares h
    obtain ⟨τ, hrun', hassigned⟩ := hcopies h υ
    rw [← hassigned.status] at hzero
    have hfirst : ∀ rest, h.run (xs ++ ys ++ [⟨.test, [oc, oc]⟩] ++ mid ++ rest) σ =
        h.run rest τ := by
      intro rest
      rw [List.append_assoc, Host.run_append_of_falls hrun,
        Host.run_append_of_falls hrun']
    have hthere := hagrees'.cross hA hmoves hassigned hb hedge hcross
    split at target
    · next hword =>
      obtain ⟨hc, hlabel⟩ := hA.target hy target
      refine ⟨hc, _, τ, hcode, ?_, hthere⟩
      have hjumps : Machine.Cond.holds τ.status .e = true := hzero.mpr hword
      rw [hfirst, Host.run_cons_of_jumps (Machine.step_jcc hlabel hjumps)]
    · next hword =>
      obtain ⟨hc, hlabel⟩ := hA.target hx target
      refine ⟨hc, _, τ, hcode, ?_, hthere⟩
      have hstays : Machine.Cond.holds τ.status .e = false :=
        Bool.eq_false_iff.mpr fun hcond => hword (hzero.mp hcond)
      rw [hfirst, Host.run_cons_of_falls (Machine.step_jcc_of_not hjcc hstays),
        Host.run_singleton, Machine.step_jmp hlabel]

/-- A block that returns a word returns it in the register for it. -/
theorem returns (hA : A.Moving) (hagrees : A.Agrees W ρ b σ) (hb : b ∈ A.source.blocks)
    (hleave : env.module.depart? W ρ b = some (.returns x)) (h : Host) :
    ∃ code τ, A.machine.codeOf (A.blockOf b) = some code ∧
      h.run code σ = some (.returns τ) ∧
      (τ.phys .rax).setWidth A.source.sig.ret.bits =
        x.setWidth A.source.sig.ret.bits := by
  obtain ⟨i, v, hi, opcode, operands, hword⟩ := IR.Module.depart?_returns hleave
  obtain ⟨p, last, d, moves, mid, hp, hid, hclosing, hmid, -, hcopies⟩ := hA.block hb hi
  rw [← hid]
  obtain ⟨o, st, ho, hst, hcode⟩ :=
    hclosing.code_ret hp hA.small hmid hA.abi hA.isDefined opcode operands
  obtain ⟨hhand, hret⟩ := hA.moves.returned _ hb _ hi opcode v (by simp [operands])
  obtain ⟨hfound, hbits⟩ := hA.found hhand ho
  have hlive : env.module.Live b v := .used hi (by simp [operands])
  have hvalue := hagrees.value (h := h) hfound ho hlive hword
  have hwidth : o.width = st.width := hbits.symm.trans (hret.trans (IR.Ty.bits_eq hst))
  obtain ⟨τ, hrun, hassigned⟩ := hcopies h (h.write σ ⟨.phys .rax, st⟩ (h.value σ o))
  refine ⟨_, τ, hcode, ?_, ?_⟩
  · rw [List.cons_append, Host.run_cons_of_falls (Machine.step_copy _ _),
      Host.run_append_of_falls hrun]
    rfl
  · rw [hwidth] at hvalue
    rw [IR.Ty.bits_eq hst, hassigned.phys, ← hvalue]
    exact Machine.setWidth_merge st.width_le _ _

/--
A run from a block that returns a word is a run of the finished function that returns it.
-/
theorem run (hA : A.Moving) (hagrees : A.Agrees W ρ b σ) (hb : b ∈ A.source.blocks)
    (hrun : env.module.Returns W b ρ x) (h : Host) :
    ∃ τ, A.machine.Returns h (A.blockOf b) σ τ ∧
      (τ.phys .rax).setWidth A.source.sig.ret.bits =
        x.setWidth A.source.sig.ret.bits := by
  induction hrun generalizing σ with
  | now leave =>
    obtain ⟨code, τ, hcode, hrun, hword⟩ := hagrees.returns hA hb leave h
    exact ⟨τ, .now hcode hrun, hword⟩
  | later leave edge _ ih =>
    obtain ⟨hc, code, υ, hcode, hrun, hthere⟩ := hagrees.goes hA hb leave edge h
    obtain ⟨τ, hreturns, hword⟩ := ih hthere hc
    exact ⟨τ, .jump hcode hrun hreturns, hword⟩

end Agrees

end Assembly

/--
A function of phis and branches returns, in the register for it, what a run of its source
returns, if no phi of one successor of a block is live in another.
-/
theorem lowerFunction_returns {f : IR.Function} {id : Machine.FuncId}
    (hbuilt : IR.Built env.module) (hvalues : env.module.values.size ≤ 2 ^ 32)
    (habi : env.abi = .win64) (hf : env.module.function func = .ok f)
    (hdef : f.isExternal = false) (hmoves : env.module.MovesWords f)
    (hkeeps : env.module.KeepsLive f) (h : Runs (lowerFunction func) env s (some id) s') :
    ∃ g, s'.output.functions = s.output.functions ++ [g] ∧ (g.operands.size ≤ 2 ^ 32 →
      ∀ (W : World) (x : BitVec 64) (b : IR.BlockId), f.blocks.head? = some b →
        env.module.Returns W b (fun _ => none) x →
          ∀ (host : Host) (σ : Cpu), ArgumentsIn f W σ →
          ∃ mb τ, g.layout.head? = some mb ∧ g.Returns host mb σ τ ∧
            (τ.phys .rax).setWidth f.sig.ret.bits = x.setWidth f.sig.ret.bits) := by
  obtain ⟨A⟩ := exists_assembly h
  cases hf.symm.trans A.function
  refine ⟨A.machine, A.output, fun hsmall W x b hb hrun host σ hargs => ?_⟩
  have hA : A.Moving := ⟨hbuilt.linked hvalues, hsmall, habi, hdef, hmoves, hkeeps⟩
  have hagrees : A.Agrees W (fun _ => none) b σ :=
    ⟨hargs, fun _ _ _ _ _ _ _ hx => by cases hx⟩
  obtain ⟨τ, hreturns, hword⟩ := hagrees.run hA (List.mem_of_head? hb) hrun host
  refine ⟨A.blockOf b, τ, ?_, hreturns, hword⟩
  rw [A.layout_eq_map, List.head?_map, hb]
  rfl

/-! ## Words that rotate -/

/--
`f(x, y)` swaps two phis once, in a loop of one block, and returns the first of them.
-/
def rotation : IR.Function :=
  ⟨"f", ⟨[.int .w32, .int .w32], .int .w32, false⟩, [⟨1⟩, ⟨2⟩], [⟨0⟩, ⟨1⟩, ⟨2⟩],
    false, ⟨0⟩⟩

def rotating : IR.Module where
  name := "m"
  values := #[⟨.ptr (.function [.int .w32, .int .w32] (.int .w32) false), .function ⟨0⟩⟩,
    ⟨.int .w32, .argument ⟨0⟩ 0⟩, ⟨.int .w32, .argument ⟨0⟩ 1⟩, ⟨.void, .block ⟨0⟩⟩,
    ⟨.void, .block ⟨1⟩⟩,
    ⟨.void, .block ⟨2⟩⟩, ⟨.bool, .constant (.int 1)⟩, ⟨.bool, .constant (.int 0)⟩,
    ⟨.void, .instruction ⟨0⟩⟩, ⟨.int .w32, .instruction ⟨1⟩⟩,
    ⟨.int .w32, .instruction ⟨2⟩⟩,
    ⟨.bool, .instruction ⟨3⟩⟩, ⟨.void, .instruction ⟨4⟩⟩, ⟨.int .w32, .instruction ⟨5⟩⟩,
    ⟨.void, .instruction ⟨6⟩⟩]
  insts := #[⟨.br, [⟨4⟩], .void, ⟨0⟩, ⟨8⟩⟩,
    ⟨.phi, [⟨1⟩, ⟨3⟩, ⟨10⟩, ⟨4⟩], .int .w32, ⟨1⟩, ⟨9⟩⟩,
    ⟨.phi, [⟨2⟩, ⟨3⟩, ⟨9⟩, ⟨4⟩], .int .w32, ⟨1⟩, ⟨10⟩⟩,
    ⟨.phi, [⟨6⟩, ⟨3⟩, ⟨7⟩, ⟨4⟩], .bool, ⟨1⟩, ⟨11⟩⟩,
    ⟨.condBr, [⟨11⟩, ⟨4⟩, ⟨5⟩], .void, ⟨1⟩, ⟨12⟩⟩,
    ⟨.phi, [⟨9⟩, ⟨4⟩], .int .w32, ⟨2⟩, ⟨13⟩⟩,
    ⟨.ret, [⟨13⟩], .void, ⟨2⟩, ⟨14⟩⟩]
  blocks := #[⟨⟨0⟩, some "entry", [⟨0⟩], ⟨3⟩⟩,
    ⟨⟨0⟩, some "loop", [⟨1⟩, ⟨2⟩, ⟨3⟩, ⟨4⟩], ⟨4⟩⟩, ⟨⟨0⟩, some "exit", [⟨5⟩, ⟨6⟩], ⟨5⟩⟩]
  functions := #[rotation]
  globals := #[]

theorem built_rotating : IR.Built rotating := by
  have h := (IR.Built.empty "m").addFunction "f" ⟨[.int .w32, .int .w32], .int .w32,
    false⟩ false
  have h := h.block ⟨0⟩ (some "entry") rfl
  have h := h.block ⟨0⟩ (some "loop") rfl
  have h := h.block ⟨0⟩ (some "exit") rfl
  have h := (h.constant .bool (.int 1)).constant .bool (.int 0)
  have h := h.inst ⟨0⟩ .br [⟨4⟩] .void rfl
  have h := h.inst ⟨1⟩ .phi [⟨1⟩, ⟨3⟩] (.int .w32) rfl
  have h := h.inst ⟨1⟩ .phi [⟨2⟩, ⟨3⟩, ⟨9⟩, ⟨4⟩] (.int .w32) rfl
  have h := h.incoming ⟨9⟩ ⟨10⟩ ⟨1⟩ rfl
  have h := h.inst ⟨1⟩ .phi [⟨6⟩, ⟨3⟩, ⟨7⟩, ⟨4⟩] .bool rfl
  have h := h.inst ⟨1⟩ .condBr [⟨11⟩, ⟨4⟩, ⟨5⟩] .void rfl
  have h := h.inst ⟨2⟩ .phi [⟨9⟩, ⟨4⟩] (.int .w32) rfl
  have h := h.inst ⟨2⟩ .ret [⟨13⟩] .void rfl
  exact h

theorem keepsLive_rotating : rotating.KeepsLive rotation :=
  IR.Module.keepsLive_of_table
    (show rotating.boundsLive _ (fun b =>
        if b = ⟨0⟩ then [⟨4⟩, ⟨1⟩, ⟨2⟩, ⟨6⟩, ⟨5⟩, ⟨7⟩]
        else if b = ⟨1⟩ then [⟨11⟩, ⟨4⟩, ⟨5⟩, ⟨10⟩, ⟨9⟩, ⟨7⟩] else [⟨13⟩]) =
          true by decide +kernel)
    (by decide +kernel)

theorem returns_rotating (W : World) :
    rotating.Returns W ⟨0⟩ (fun _ => none) (W.argument 1) := by
  refine .later (c := ⟨1⟩) rfl rfl ?_
  refine .later (c := ⟨1⟩) rfl rfl ?_
  refine .later (c := ⟨2⟩) rfl rfl ?_
  exact .now rfl

/--
The copies in the loop swap two registers and set two more; the second argument is
returned.
-/
theorem lowerFunction_rotating :
    ∃ id s' g, Runs (lowerFunction ⟨0⟩) ⟨rotating, .win64⟩ (.initial "m") (some id) s' ∧
      s'.output.functions = [g] ∧
        ∀ (W : World) (host : Host) (σ : Cpu), ArgumentsIn rotation W σ →
        ∃ mb τ, g.layout.head? = some mb ∧ g.Returns host mb σ τ ∧
          (τ.phys .rax).setWidth 32 = (W.argument 1).setWidth 32 := by
  obtain ⟨r, s', hrun, htest⟩ := runs_of_leaves (s := .initial "m")
    (show leaves (lowerFunction ⟨0⟩) ⟨rotating, .win64⟩ _ (fun r s => r.isSome &&
      s.output.functions.all fun g => g.operands.size ≤ 2 ^ 32) = true by decide +kernel)
  rw [Bool.and_eq_true, Option.isSome_iff_exists] at htest
  obtain ⟨⟨id, rfl⟩, hsmall⟩ := htest
  obtain ⟨g, hg, hreturns⟩ :=
    @lowerFunction_returns ⟨rotating, .win64⟩ ⟨0⟩ _ _ rotation _ built_rotating
    (by decide) rfl rfl rfl (by decide +kernel) keepsLive_rotating hrun
  have hg : s'.output.functions = [g] := hg
  rw [hg, List.all_cons, Bool.and_eq_true, decide_eq_true_eq] at hsmall
  exact ⟨id, s', g, hrun, hg, fun W host σ hargs =>
    hreturns hsmall.1 W _ ⟨0⟩ rfl (returns_rotating W) host σ hargs⟩

/-! ## A word that is lost -/

/--
`f(again)` gives a phi another word each time around a loop, and returns it behind the
loop.
-/
def lateExit : IR.Function :=
  ⟨"f", ⟨[.bool], .int .w32, false⟩, [⟨1⟩], [⟨0⟩, ⟨1⟩, ⟨2⟩], false, ⟨0⟩⟩

def lostCopy : IR.Module where
  name := "m"
  values := #[⟨.ptr (.function [.bool] (.int .w32) false), .function ⟨0⟩⟩,
    ⟨.bool, .argument ⟨0⟩ 0⟩,
    ⟨.void, .block ⟨0⟩⟩, ⟨.void, .block ⟨1⟩⟩, ⟨.void, .block ⟨2⟩⟩,
    ⟨.int .w32, .constant (.int 0)⟩,
    ⟨.int .w32, .constant (.int 1)⟩, ⟨.void, .instruction ⟨0⟩⟩,
    ⟨.int .w32, .instruction ⟨1⟩⟩, ⟨.void, .instruction ⟨2⟩⟩, ⟨.void, .instruction ⟨3⟩⟩]
  insts := #[⟨.br, [⟨3⟩], .void, ⟨0⟩, ⟨7⟩⟩,
    ⟨.phi, [⟨5⟩, ⟨2⟩, ⟨6⟩, ⟨3⟩], .int .w32, ⟨1⟩, ⟨8⟩⟩,
    ⟨.condBr, [⟨1⟩, ⟨3⟩, ⟨4⟩], .void, ⟨1⟩, ⟨9⟩⟩, ⟨.ret, [⟨8⟩], .void, ⟨2⟩, ⟨10⟩⟩]
  blocks := #[⟨⟨0⟩, some "entry", [⟨0⟩], ⟨2⟩⟩, ⟨⟨0⟩, some "loop", [⟨1⟩, ⟨2⟩], ⟨3⟩⟩,
    ⟨⟨0⟩, some "exit", [⟨3⟩], ⟨4⟩⟩]
  functions := #[lateExit]
  globals := #[]

theorem built_lostCopy : IR.Built lostCopy := by
  have h := (IR.Built.empty "m").addFunction "f" ⟨[.bool], .int .w32, false⟩ false
  have h := h.block ⟨0⟩ (some "entry") rfl
  have h := h.block ⟨0⟩ (some "loop") rfl
  have h := h.block ⟨0⟩ (some "exit") rfl
  have h := (h.constant (.int .w32) (.int 0)).constant (.int .w32) (.int 1)
  have h := h.inst ⟨0⟩ .br [⟨3⟩] .void rfl
  have h := h.inst ⟨1⟩ .phi [⟨5⟩, ⟨2⟩, ⟨6⟩, ⟨3⟩] (.int .w32) rfl
  have h := h.inst ⟨1⟩ .condBr [⟨1⟩, ⟨3⟩, ⟨4⟩] .void rfl
  have h := h.inst ⟨2⟩ .ret [⟨8⟩] .void rfl
  exact h

/-- The source leaves the loop at once, and returns the word with which it was entered. -/
theorem returns_lostCopy {W : World} (hW : (W.argument 0).setWidth 8 = 0) :
    lostCopy.Returns W ⟨0⟩ (fun _ => none) 0 := by
  refine .later (c := ⟨1⟩) rfl rfl ?_
  refine .later (c := ⟨2⟩) ?_ rfl (.now rfl)
  show (lostCopy.target? (if (W.argument 0).setWidth 8 = 0 then ⟨4⟩ else ⟨3⟩)).map _ = _
  rw [if_pos hW]
  rfl

/--
The code of the blocks: the copy for the way around the loop stands before the test of the
way out.
-/
def lostCopyCode : List (List Code) :=
  [[⟨.mov, [⟨.virt ⟨0⟩, .i32⟩, ⟨.imm 0, .i32⟩]⟩, ⟨.jmp, [⟨.label ⟨1⟩, .void⟩]⟩],
    [⟨.test, [⟨.phys .rcx, .i8⟩, ⟨.phys .rcx, .i8⟩]⟩,
      ⟨.mov, [⟨.virt ⟨0⟩, .i32⟩, ⟨.imm 1, .i32⟩]⟩,
        ⟨.jcc .e, [⟨.label ⟨2⟩, .void⟩]⟩, ⟨.jmp, [⟨.label ⟨1⟩, .void⟩]⟩],
    [⟨.mov, [⟨.phys .rax, .i32⟩, ⟨.virt ⟨0⟩, .i32⟩]⟩, ⟨.ret, []⟩]]

theorem run_lostCopyCode {g : Machine.Function}
    (hcode : [⟨0⟩, ⟨1⟩, ⟨2⟩].map g.codeOf = lostCopyCode.map some) (h : Host) {σ : Cpu}
    (hzero : (σ.phys .rcx).setWidth 8 = 0) :
    ∃ τ, g.Returns h ⟨0⟩ σ τ ∧ (τ.phys .rax).setWidth 32 = 1 := by
  simp only [lostCopyCode, List.map_cons, List.map_nil, List.cons.injEq,
    and_true] at hcode
  obtain ⟨entry, loop, exit⟩ := hcode
  let σ1 := σ.setVirt 32 ⟨0⟩ 0
  let σ2 : Cpu := { σ1 with status := .ofTest 8 (σ.phys .rcx) (σ.phys .rcx) }
  let σ3 := σ2.setVirt 32 ⟨0⟩ 1
  let τ := σ3.setPhys 32 .rax (σ3.virt ⟨0⟩)
  have hleave : Machine.Cond.holds σ3.status .e = true := by
    show ((σ.phys .rcx &&& σ.phys .rcx).setWidth 8 == 0) = true
    rw [BitVec.and_self, hzero]
    rfl
  refine ⟨τ, .jump (τ := σ1) entry rfl (.jump (τ := σ3) loop ?_ (.now exit rfl)), ?_⟩
  · rw [Host.run_cons_of_falls (τ := σ2) rfl, Host.run_cons_of_falls (τ := σ3) rfl,
      Host.run_cons_of_jumps (Machine.step_jcc rfl hleave)]
  · calc (τ.phys .rax).setWidth 32
        = (σ3.virt ⟨0⟩).setWidth 32 := Machine.setWidth_merge (by decide) (σ.phys .rax) _
      _ = (1 : BitVec 64).setWidth 32 :=
        Machine.setWidth_merge (by decide) (σ2.virt ⟨0⟩) _

/-- The register of the phi has got the word for another time around the loop by then. -/
theorem lowerFunction_lostCopy :
    IR.Built lostCopy ∧ lostCopy.function ⟨0⟩ = .ok lateExit ∧
      lostCopy.MovesWords lateExit ∧
    ∃ id s' g, Runs (lowerFunction ⟨0⟩) ⟨lostCopy, .win64⟩ (.initial "m") (some id) s' ∧
      s'.output.functions = [g] ∧ ∃ mb, g.layout.head? = some mb ∧
        ∀ (W : World) (host : Host) (σ : Cpu), (W.argument 0).setWidth 8 = 0 →
          ArgumentsIn lateExit W σ →
          lostCopy.Returns W ⟨0⟩ (fun _ => none) 0 ∧ (∃ τ, g.Returns host mb σ τ) ∧
            ∀ τ, g.Returns host mb σ τ → (τ.phys .rax).setWidth 32 = 1 := by
  obtain ⟨r, s', hrun, htest⟩ := runs_of_leaves (s := .initial "m")
    (show leaves (lowerFunction ⟨0⟩) ⟨lostCopy, .win64⟩ _ (fun r s => r.isSome &&
      (s.output.functions.map fun g => (g.layout.head?, [⟨0⟩, ⟨1⟩, ⟨2⟩].map g.codeOf)) =
        [(some ⟨0⟩, lostCopyCode.map some)]) = true by decide +kernel)
  rw [Bool.and_eq_true, Option.isSome_iff_exists, decide_eq_true_eq] at htest
  obtain ⟨⟨id, rfl⟩, htest⟩ := htest
  obtain ⟨g, hg, heq⟩ := List.map_eq_singleton_iff.mp htest
  obtain ⟨hhead, hcode⟩ := Prod.mk.inj heq
  refine ⟨built_lostCopy, rfl, by decide +kernel, id, s', g, hrun, hg, ⟨0⟩, hhead,
    fun W host σ hW hargs => ?_⟩
  have hzero : (σ.phys .rcx).setWidth 8 = 0 :=
    (hargs 0 .bool .rcx .i8 rfl rfl rfl).trans hW
  obtain ⟨τ, hτ, hword⟩ := run_lostCopyCode hcode host hzero
  exact ⟨returns_lostCopy hW, ⟨τ, hτ⟩, fun τ' hτ' => hτ.unique hτ' ▸ hword⟩

end InstSelect.Lowering
