import InstSelect.Proofs.MemoryCode

/-!
# The code of divisions and calls

Divisions and calls overwrite registers that may hold incoming arguments, so their code
stands between saves and reloads. `Confinedly` says of a stretch of selection that its
code is confined to a list of registers, `Tamely` that it is tame; a stretch under
`preserving` turns the one into the other.
-/

namespace InstSelect.Machine

open Lowering (signExtension)

variable {abi : Abi} {regs : List PhysReg} {n : Nat} {op : Op} {work : Storage}

/-! ## Dividing the pair -/

/-- Extends `rax` over the pair and divides it. -/
inductive Divides (work : Storage) (r : Operand) : Bool → List Code → Prop
  | signed {op : Op} (fill : signExtension work = .ok op) :
      Divides work r true [⟨op, []⟩, ⟨.idiv, [r]⟩]
  | unsigned :
      Divides work r false [⟨.xor, [⟨.phys .rdx, work⟩, ⟨.phys .rdx, work⟩]⟩, ⟨.div, [r]⟩]

/-- The half of the pair that a result is in. -/
def resultRegister (remainder : Bool) : PhysReg := if remainder then .rdx else .rax

/-- A plain instruction is confined to where its destination is. -/
theorem confined_of_dst {dst : Operand} {rest : List Operand}
    (hstays : op.isTerminator = false) (hop : op.clobbersNothing = true)
    (hdst : dst.Inside regs) (hvirt : ∀ r, dst.form = .virt r → n ≤ r.index.toNat) :
    (⟨op, dst :: rest⟩ : Code).Confined abi regs ∧
      (⟨op, dst :: rest⟩ : Code).SparesVirt n := by
  have hplace : ∀ o ∈ (⟨op, dst :: rest⟩ : Code).dst?, o = dst := by
    intro o ho
    unfold Code.dst? at ho
    split at ho <;> cases ho
    rfl
  refine ⟨⟨hstays, fun r _ hcl => ?_, fun hdiv => ?_, fun o ho => hplace o ho ▸ hdst⟩,
    fun o ho => hplace o ho ▸ hvirt⟩
  · cases op <;> simp_all [Op.clobbersNothing, Op.Clobbers]
  · cases op <;> simp_all [Op.clobbersNothing, Op.divides]

/-- Divisions clobber the accumulator pair. -/
theorem confined_divide (os : List Operand)
    (hop : op = .div ∨ op = .idiv ∨ op = .cwd ∨ op = .cdq ∨ op = .cqo) :
    (⟨op, os⟩ : Code).Confined .win64 [.rax, .rdx] ∧ (⟨op, os⟩ : Code).SparesVirt n := by
  rcases hop with rfl | rfl | rfl | rfl | rfl
  all_goals
    refine ⟨⟨rfl, fun r _ hcl => ?_, fun _ => by simp, fun dst hd => by cases hd⟩,
      fun dst hd => by cases hd⟩
    rcases hcl with rfl | rfl <;> simp

theorem signExtension_op (h : signExtension work = .ok op) :
    op = .cwd ∨ op = .cdq ∨ op = .cqo := by
  cases work <;> simp_all [signExtension]

theorem Divides.confined {r : Operand} {signed : Bool} {code : List Code} {c : Code}
    (h : Divides work r signed code) (hc : c ∈ code) :
    c.Confined .win64 [.rax, .rdx] ∧ c.SparesVirt n := by
  cases h with
  | signed fill =>
    simp only [List.mem_cons, List.not_mem_nil, or_false] at hc
    rcases hc with rfl | rfl
    · exact confined_divide [] (.inr (.inr (signExtension_op fill)))
    · exact confined_divide [r] (by simp)
  | unsigned =>
    simp only [List.mem_cons, List.not_mem_nil, or_false] at hc
    rcases hc with rfl | rfl
    · exact confined_of_dst rfl rfl (.tail _ (.head _)) fun r hr => by cases hr
    · exact confined_divide [r] (by simp)

end InstSelect.Machine

namespace InstSelect.Lowering

open IR (ValueId Inst)
open Machine (Storage OperandId Op PhysReg VReg Code Arena Incoming Tame Divides
  resultRegister)

variable {α : Type} {env : Env} {s s' t : State} {n : Nat} {regs : List PhysReg}
  {op : Op} {u : Unit} {st target work : Storage} {id src lhs rhs : OperandId}
  {divides signed remainder : Bool} {i : Inst}

/-! ## Confined and tame stretches -/

/--
Selection went from one state to another by confined code that spares older registers.
-/
abbrev Confinedly (env : Env) (n : Nat) (regs : List PhysReg) : State → State → Prop :=
  Through env fun c => c.Confined .win64 regs ∧ c.SparesVirt n

/-- An instruction that writes a register of the list, or a late virtual one. -/
theorem Confinedly.of_emit {dst : OperandId} {rest : List OperandId}
    (hstays : op.isTerminator = false) (hop : op.clobbersNothing = true)
    (hdst : ∀ A : Arena, s.Within A → ∃ o, A.get? dst = some o ∧
      o.Inside regs ∧ ∀ r, o.form = .virt r → n ≤ r.index.toNat)
    (h : Runs (emit op (dst :: rest)) env s u s') : Confinedly env n regs s s' := by
  obtain ⟨os, hpath, -, -, hos⟩ := emit_path h
  refine ⟨_, hpath, fun A hA c hc => ?_⟩
  obtain rfl := List.mem_singleton.mp hc
  obtain ⟨x, xs, hx, -, rfl⟩ :=
    List.forall₂_cons_left_iff.mp (Machine.Function.mapM_eq_some.mp (hos A hA))
  obtain ⟨o, ho, hinside, hlate⟩ := hdst A (hpath.within hA)
  cases ho.symm.trans hx
  exact Machine.confined_of_dst hstays hop hinside hlate

/-- A step whose code is confined, with what is known of its answer. -/
abbrev Confines (env : Env) (n : Nat) (regs : List PhysReg) (s : State) (x : LowerM α)
    (Q : α → State → Prop) :
    Prop :=
  Along (through env n fun c => c.Confined .win64 regs ∧ c.SparesVirt n) s x Q

/-- Selection went from one state to another by tame code. -/
def Tamely (env : Env) (divides : Bool) (n : Nat) (s s' : State) : Prop :=
  ∃ code, Path env s s' code ∧ ∀ (A : Arena) (args : List Incoming), s'.Within A →
    Arguments A s args → Tame divides args n code

namespace Tamely

variable {divides : Bool}

theorem of_quietly (h : Quietly env n s s') : Tamely env divides n s s' := by
  obtain ⟨code, hpath, hq⟩ := h
  exact ⟨code, hpath, fun A _ hA _ => .quiet fun c hc => (hq A hA c hc).quiet⟩

theorem trans (h : Tamely env divides n s t) (h' : Tamely env divides n t s') :
    Tamely env divides n s s' := by
  obtain ⟨xs, hxs, txs⟩ := h
  obtain ⟨ys, hys, tys⟩ := h'
  exact ⟨xs ++ ys, hxs.trans hys, fun A args hA hargs =>
    .append (txs A args (hys.within hA) hargs) (tys A args hA (hargs.path hxs))⟩

theorem vregs_le (h : Tamely env divides n s s') : s.vregs ≤ s'.vregs := by
  obtain ⟨code, hpath, -⟩ := h
  exact hpath.vregs_le

end Tamely

/-- Tame stretches, from where the registers below `n` are there. -/
def tame (env : Env) (divides : Bool) (n : Nat) : Discipline env where
  Starts s := n ≤ s.vregs
  Leads := Tamely env divides n
  refl s := .of_quietly (.of_path (.refl s))
  trans := .trans
  goesOn hn h := Nat.le_trans hn h.vregs_le

/-- A step whose code is tame, with what is known of its answer. -/
abbrev Tames (env : Env) (divides : Bool) (n : Nat) (s : State) (x : LowerM α)
    (Q : α → State → Prop) : Prop :=
  Along (tame env divides n) s x Q

theorem Along.tame {x : LowerM α} {Q : α → State → Prop} (h : Quiets env n s x Q) :
    Tames env divides n s x Q := by
  intro hn a t hrun
  obtain ⟨hquiet, hQ⟩ := h hn hrun
  exact ⟨.of_quietly hquiet, hQ⟩

/-- A store writes memory, which is no register. -/
theorem lowerStore_tamely : Tames env divides n s (lowerStore i) fun _ _ => True := by
  refine .check fun _ _ => .read .sourceModule fun _ _ => .check fun _ _ =>
    .check fun st _ =>
    valueOperand_quietly.tame.bind fun _ _ _ _ =>
      aluSource_quietly.tame.bind fun _ _ _ _ =>
    addressRegister_quietly.tame.bind fun address s3 _ _ => fun _ _ t h => ?_
  obtain ⟨memory, s4, hmem, hmov⟩ := runs_bind.mp h
  obtain ⟨base, a4⟩ := memoryAt_adds hmem
  obtain ⟨os, p5, -, -, f5⟩ := emit_path hmov
  refine ⟨(Tamely.of_quietly (.of_path a4.path)).trans ⟨_, p5,
    fun A _ hA _ => .quiet fun c hc => ?_⟩, trivial⟩
  obtain rfl := List.mem_singleton.mp hc
  obtain ⟨dst, y, hd, -, rfl⟩ := mapM_pair.mp (f5 A hA)
  cases (a4.get A (p5.within hA)).symm.trans hd
  refine ⟨rfl, fun o ho => ?_⟩
  cases ho
  trivial

/-- Confined code under `preserving` is tame. -/
theorem preserving_tamely {body : LowerM α} {Q : α → State → Prop}
    (habi : env.abi = .win64) (hbase : .rbp ∉ regs) (hrax : .rax ∈ regs → divides = true)
    (hbody : ∀ t, Confines env n regs t body Q)
    (hlater : ∀ a t u code, Path env t u code → Q a t → Q a u) :
    Tames env divides n s (preserving regs body) Q := by
  intro hn x s' h
  have hle : n ≤ s.vregs := hn
  obtain ⟨t, u, pre, post, hpre, hrun, hpost, nt, nu, hcode⟩ :=
    preserving_path habi h fun t u ht hrun => by
      obtain ⟨⟨code, hpath, -⟩, -⟩ := hbody t (show n ≤ t.vregs by omega) hrun
      exact ⟨code, hpath⟩
  obtain ⟨⟨code, hpath, hconf⟩, hQ⟩ := hbody t (show n ≤ t.vregs by omega) hrun
  refine ⟨⟨pre ++ code ++ post, (hpre.trans hpath).trans hpost,
    fun A args hA hargs => ?_⟩, hlater x u s' post hpost hQ⟩
  obtain ⟨rfl, rfl⟩ := hcode A args hA hargs
  have hc := hconf A (hpost.within hA)
  exact .preserving regs hbase hrax (fun c hm => (hc c hm).1) fun c hm => (hc c hm).2

/-! ## Divisions -/

theorem widen_code (h : Runs (widen src target signed) env s id s') :
    ∃ code, Path env s s' code ∧ ∀ A : Arena, s'.Within A → ∃ o, A.get? src = some o ∧
      ((∃ k, o.form = .imm k ∧
        A.get? id = some ⟨.imm (widenImm signed o.storage k), target⟩ ∧ code = [] ∧
        s'.vregs = s.vregs) ∨
      ∃ r : VReg, r.index.toNat = s.vregs ∧ A.get? id = some ⟨.virt r, target⟩ ∧
        code = [⟨Machine.wideningOp signed, [⟨.virt r, target⟩, o]⟩] ∧
          s'.vregs = s.vregs + 1 ∧ o.imm? = none) := by
  simp only [widen, runs_bind] at h
  obtain ⟨o, _, ho, h⟩ := h
  obtain ⟨c, hc, _, rfl⟩ := runs_operand.mp ho
  split at h
  · next k hk =>
    have hadds := imm_adds h
    exact ⟨[], hadds.path, fun A hA => ⟨o, operand_get ho (hadds.path.within hA),
      .inl ⟨k, imm?_eq_some.mp hk, hadds.get A hA, rfl, hadds.vregs⟩⟩⟩
  · next hnone =>
    simp only [runs_bind, runs_pure] at h
    obtain ⟨dst, t, hdst, _, _, hemit, rfl, rfl⟩ := h
    obtain ⟨r, code, hr, hvregs, hpath, hcode⟩ := fill_path hdst hemit
    refine ⟨code, hpath, fun A hA => ?_⟩
    obtain ⟨o', ho', hget, rfl⟩ := hcode A hA
    cases (operand_get ho (hpath.within hA)).symm.trans ho'
    exact ⟨o, ho', .inr ⟨r, hr, hget, rfl, hvregs, hnone⟩⟩

/-- A divisor is in a virtual register or in memory. -/
theorem divisorOperand_fetch (h : Runs (divisorOperand src) env s id s') :
    ∃ code, Path env s s' code ∧ ∀ A : Arena, s'.Within A →
      Fetches A src id s.vregs code s'.vregs fun _ o' =>
      (∃ p, o'.form = .virt p) ∨ ∃ a, o'.form = .mem a := by
  simp only [divisorOperand, runs_bind] at h
  obtain ⟨o, _, ho, h⟩ := h
  obtain ⟨c, hc, _, rfl⟩ := runs_operand.mp ho
  split at h
  · next p hp =>
    obtain ⟨rfl, rfl⟩ := runs_pure.mp h
    exact ⟨[], .refl s, fun A hA => .keep (operand_get ho hA) (.inl ⟨p, hp⟩)⟩
  · next a ha =>
    obtain ⟨rfl, rfl⟩ := runs_pure.mp h
    exact ⟨[], .refl s, fun A hA => .keep (operand_get ho hA) (.inr ⟨a, ha⟩)⟩
  · obtain ⟨code, hpath, hf⟩ := copyToVReg_fetch h
    refine ⟨code, hpath, fun A hA => (hf A hA).imp ?_⟩
    rintro o' _ ⟨r, rfl⟩
    exact .inl ⟨r, rfl⟩

theorem divisorOperand_quietly : IsQuiet env n s (divisorOperand src) := by
  intro hn _ _ h
  obtain ⟨code, hpath, hf⟩ := divisorOperand_fetch h
  exact ⟨Quietly.of_fetch hn hpath hf, trivial⟩

theorem widen_quietly : IsQuiet env n s (widen src target signed) := by
  refine .read (.operand src) fun _ _ => ?_
  split
  · exact imm_quietly
  · exact (fill_quietly (Machine.clobbersNothing_wideningOp signed)).imp fun _ _ _ _ =>
      trivial

/-- The division proper. -/
theorem dividePair_code
    (h : Runs (dividePair work signed remainder lhs rhs) env s id s') :
    ∃ code q, Path env s s' code ∧ s.vregs ≤ q.index.toNat ∧ q.index.toNat < s'.vregs ∧
      ∀ A : Arena, s'.Within A → ∃ l r divide, A.get? lhs = some l ∧ A.get? rhs = some r ∧
        A.get? id = some ⟨.virt q, work⟩ ∧ Divides work r signed divide ∧
        code = ⟨.mov, [⟨.phys .rax, work⟩, l]⟩ ::
          (divide ++ [⟨.mov,
            [⟨.virt q, work⟩, ⟨.phys (resultRegister remainder), work⟩]⟩]) := by
  simp only [dividePair, runs_bind] at h
  obtain ⟨low, s1, hlow, high, s2, hhigh, _, s3, hmov, h⟩ := h
  have a1 := physReg_adds hlow
  have a2 := physReg_adds hhigh
  obtain ⟨os3, p3, -, -, f3⟩ := emit_path hmov
  -- Both kinds of division end in the same copy of the result.
  have hmiddle : ∃ divide s5, Path env s3 s5 divide ∧
      Runs (newVReg work >>= fun result =>
        emit .mov [result, if remainder then high else low] >>= fun _ => pure result) env
          s5 id s' ∧
      ∀ A : Arena, s5.Within A →
        ∃ r, A.get? rhs = some r ∧ Divides work r signed divide := by
    split at h
    · next hsigned =>
      subst hsigned
      simp only [runs_bind, runs_check] at h
      obtain ⟨op, _, ⟨hop, rfl⟩, _, s4, hext, _, s5, hdiv, h⟩ := h
      obtain ⟨os4, p4, -, -, f4⟩ := emit_path hext
      obtain ⟨os5, p5, -, -, f5⟩ := emit_path hdiv
      refine ⟨_, s5, p4.trans p5, by simpa only [runs_bind] using h, fun A hA => ?_⟩
      cases f4 A (p5.within hA)
      obtain ⟨r, hr, rfl⟩ := mapM_single.mp (f5 A hA)
      exact ⟨r, hr, .signed hop⟩
    · next hsigned =>
      obtain rfl := Bool.eq_false_iff.mpr hsigned
      simp only [runs_bind] at h
      obtain ⟨_, s4, hxor, _, s5, hdiv, h⟩ := h
      obtain ⟨os4, p4, -, -, f4⟩ := emit_path hxor
      obtain ⟨os5, p5, -, -, f5⟩ := emit_path hdiv
      refine ⟨_, s5, p4.trans p5, by simpa only [runs_bind] using h, fun A hA => ?_⟩
      have hA4 := p5.within hA
      obtain ⟨x, y, hx, hy, rfl⟩ := mapM_pair.mp (f4 A hA4)
      obtain ⟨r, hr, rfl⟩ := mapM_single.mp (f5 A hA)
      have hrdx := a2.get A (p3.within (p4.within hA4))
      cases hrdx.symm.trans hx
      cases hrdx.symm.trans hy
      exact ⟨r, hr, .unsigned⟩
  obtain ⟨divide, s5, p5, h, f5⟩ := hmiddle
  simp only [runs_bind, runs_pure] at h
  obtain ⟨result, s6, hresult, _, s7, hcopy, rfl, rfl⟩ := h
  obtain ⟨q, c7, hq, n7, p7, f7⟩ := fill_path hresult hcopy
  have hbefore := ((a1.path.then a2.path).after p3).trans p5
  refine ⟨_, q, hbefore.trans p7, hq ▸ hbefore.vregs_le, by omega, fun A hA => ?_⟩
  have hA5 := p7.within hA
  have hA3 := p5.within hA5
  have hA2 := p3.within hA3
  obtain ⟨x, l, hx, hl, rfl⟩ := mapM_pair.mp (f3 A hA3)
  cases (a1.get A (a2.path.within hA2)).symm.trans hx
  obtain ⟨r, hr, hdivides⟩ := f5 A hA5
  obtain ⟨z, hz, hget, rfl⟩ := f7 A hA
  refine ⟨l, r, divide, hl, hr, hget, hdivides, ?_⟩
  have hz' : z = ⟨.phys (resultRegister remainder), work⟩ := by
    cases remainder with
    | true => exact Option.some.inj (hz.symm.trans (a2.get A hA2))
    | false => exact Option.some.inj (hz.symm.trans (a1.get A (a2.path.within hA2)))
  rw [hz']
  simp

theorem dividePair_confinedly :
    Confines env n [.rax, .rdx] s (dividePair work signed remainder lhs rhs) fun id t =>
      FreshVirt n t id work := by
  intro hn id s' h
  obtain ⟨code, q, hpath, hq, hlt, hcode⟩ := dividePair_code h
  refine ⟨⟨code, hpath, fun A hA c hc => ?_⟩, q, Nat.le_trans hn hq, hlt, fun A hA => ?_⟩
  · obtain ⟨l, r, divide, -, -, -, hdivides, rfl⟩ := hcode A hA
    simp only [List.mem_cons, List.mem_append, List.not_mem_nil, or_false] at hc
    rcases hc with rfl | hc | rfl
    · exact Machine.confined_of_dst rfl rfl (List.mem_cons_self ..) fun r hr => by
        cases hr
    · exact hdivides.confined hc
    · refine Machine.confined_of_dst rfl rfl trivial fun r hr => ?_
      cases hr
      exact Nat.le_trans hn hq
  · obtain ⟨_, _, _, -, -, hget, -⟩ := hcode A hA
    exact hget

/-- The code of a division is tame, and its result a fresh virtual register. -/
theorem lowerDivision_tamely (habi : env.abi = .win64) :
    Tames env true n s (lowerDivision remainder i) fun id t =>
      ∃ st, scalarStorage i.ty "division" = .ok st ∧ FreshVirt n t id st := by
  refine .check fun st hst => .check fun _ _ => .read (.isSigned _) fun signed _ =>
    valueOperand_quietly.tame.bind fun _ _ _ _ =>
      valueOperand_quietly.tame.bind fun _ _ _ _ => ?_
  have hwiden : ∀ (x : OperandId) (t : State), IsQuiet env n t
      (if workStorage st = st then pure x else widen x (workStorage st) signed) :=
    fun _ _ => .ite (fun _ => .pure trivial) fun _ => widen_quietly
  refine .ite_bind ((hwiden _ _).tame.bind fun _ _ _ _ =>
    .ite_bind ((hwiden _ _).tame.bind fun _ _ _ _ => ?_))
  refine divisorOperand_quietly.tame.bind fun _ _ _ _ =>
    (preserving_tamely habi (by decide) (fun _ => rfl)
      (fun _ => dividePair_confinedly) fun _ _ _ _ hp h => h.path hp).bind
    fun _ _ _ hresult => ?_
  refine .ite (fun hwork => .pure ⟨st, hst, ?_⟩) fun _ =>
    (fill_quietly rfl).tame.imp fun _ _ _ h => ⟨st, hst, h⟩
  rwa [hwork] at hresult

/-! ## Calls -/

theorem callTarget_quietly {callee : ValueId} : IsQuiet env n s (callTarget callee) := by
  refine resolve_quietly.bind fun _ _ _ _ => .read (.operand _) fun _ _ => ?_
  split
  · exact .pure trivial
  · exact .pure trivial
  · exact .pure trivial
  · exact copyToVReg_quietly

theorem bindArgument_confinedly {arg : ValueId} {reg : PhysReg} (habi : env.abi = .win64)
    (hreg : reg ∈ regs) :
    Confines env n regs s (bindArgument arg st reg) fun _ _ => True := by
  have hmove : ∀ source t, Confines env n regs t (do
      let dst ← physReg reg st
      materialize dst source) fun _ _ => True := by
    intro source t _ u t' h
    simp only [materialize, copyOp, runs_bind, runs_pure] at h
    obtain ⟨dst, t1, hdst, _, _, ⟨o, _, ho, rfl, rfl⟩, hcopy⟩ := h
    obtain ⟨c, hc, _, rfl⟩ := runs_operand.mp ho
    have hadds := physReg_adds hdst
    refine ⟨(Through.of_path hadds.path).trans (Confinedly.of_emit ?_ ?_ (fun A hA =>
      ⟨_, hadds.get A hA, hreg, fun _ hform => by cases hform⟩) hcopy), trivial⟩
    · split <;> rfl
    · split <;> rfl
  have hresolve : Confines env n regs s (resolve arg) fun _ _ => True :=
    fun _ _ _ h => ⟨.of_path (resolve_path h).1, trivial⟩
  refine hresolve.bind fun _ t _ _ =>
    .read (Inert.machine.bind fun _ => .pure _) fun home _ => ?_
  -- An argument of the caller's own comes from its slot; either way only an operand is
  -- added.
  cases home with
  | none => exact hmove _ _
  | some j =>
    have hslot : Confines env n regs t (shadowSlot j st) fun _ _ => True := by
      intro _ _ _ h
      obtain ⟨o, hadds, -⟩ := shadowSlot_adds habi h
      exact ⟨.of_path hadds.path, trivial⟩
    exact hslot.bind fun _ _ _ _ => hmove _ _

theorem bindArguments_confinedly {args : List ValueId} {storages : List Storage}
    {rs : List PhysReg} (habi : env.abi = .win64) (hrs : ∀ r ∈ rs, r ∈ regs) :
    Confines env n regs s (bindArguments args storages rs) fun _ _ => True := by
  fun_induction bindArguments args storages rs generalizing s with
  | case1 arg args st storages reg rs ih =>
    rw [List.forall_mem_cons] at hrs
    exact (bindArgument_confinedly habi hrs.1).bind fun _ _ _ _ => ih hrs.2
  | case2 => exact .pure trivial

/-- The result of a call: none without a value, else a fresh virtual register. -/
def CallOutcome (n : Nat) (s : State) (st : Storage) (result : Option OperandId) : Prop :=
  (st = .void ∧ result = none) ∨
    (st ≠ .void ∧ ∃ id, result = some id ∧ FreshVirt n s id st)

theorem CallOutcome.path {result : Option OperandId} {code : List Code}
    (h : CallOutcome n s st result)
    (hp : Path env s s' code) : CallOutcome n s' st result := by
  rcases h with hvoid | ⟨hne, id, hid, hfresh⟩
  · exact .inl hvoid
  · exact .inr ⟨hne, id, hid, hfresh.path hp⟩

theorem callResult_confinedly :
    Confines env n regs s (callResult st) fun r t => CallOutcome n t st r := by
  refine .ite (fun hvoid => .pure (.inl ⟨hvoid, rfl⟩)) fun hvoid =>
    .read .theAbi fun abi _ => fun hn result s' h => ?_
  simp only [runs_bind, runs_pure] at h
  obtain ⟨ret, s1, hret, dst, s2, hdst, _, s3, hmov, rfl, rfl⟩ := h
  have a1 := physReg_adds hret
  obtain ⟨-, hfresh⟩ := newVReg_quietly (show n ≤ s1.vregs from a1.vregs.symm ▸ hn) hdst
  obtain ⟨-, -, -, p2, -⟩ := newVReg_adds hdst
  have e3 : Confinedly env n regs s2 s3 := .of_emit rfl rfl (fun A hA => by
    obtain ⟨r, hr, -, hget⟩ := hfresh
    refine ⟨_, hget A hA, trivial, fun q hform => ?_⟩
    cases hform
    exact hr) hmov
  exact ⟨(Through.of_path (a1.path.then p2)).trans e3,
    .inr ⟨hvoid, dst, rfl, hfresh.through e3⟩⟩

/-- A call overwrites argument registers only, as far as arguments are concerned. -/
theorem call_confinedly {ids : List OperandId} :
    Confines env n Abi.win64.argRegisters s (emit .call ids) fun _ _ => True := by
  intro _ _ _ h
  obtain ⟨os, hpath, -⟩ := emit_path h
  refine ⟨⟨_, hpath, fun A _ c hc => ?_⟩, trivial⟩
  obtain rfl := List.mem_singleton.mp hc
  refine ⟨⟨rfl, fun r htracked hcl => ?_, fun hd => (by cases hd),
    fun _ hd => by cases hd⟩, fun _ hd => by cases hd⟩
  rcases htracked with harg | rfl
  · exact harg
  · exact absurd rfl hcl

theorem reserveCallStack_path {bytes : UInt32} {w : Unit}
    (h : Runs (change fun f => pure (f.reserveCallStack bytes)) env s w s') :
    Path env s s' [] ∧ s'.vregs = s.vregs := by
  obtain ⟨c, f, hc, hf, rfl⟩ := runs_change.mp h
  obtain rfl := pure_eq_ok.mp hf
  have hgrow : Grow env s (s.withMachine c (c.machine.reserveCallStack bytes)) [] :=
    .reserve hc
  exact ⟨.step hgrow, (State.vregs_eq hc).symm⟩

/-- The code of a call is tame, and its result, if any, a fresh virtual register. -/
theorem lowerCall_tamely (habi : env.abi = .win64) :
    Tames env divides n s (lowerCall i) fun r t =>
      ∃ st, byValueStorage i.ty "call result" = .ok st ∧ CallOutcome n t st r := by
  have hreserve : ∀ bytes t,
      Tames env divides n t (change fun f => pure (f.reserveCallStack bytes))
      fun _ _ => True :=
    fun _ _ _ _ _ h => ⟨.of_quietly (.of_path (reserveCallStack_path h).1), trivial⟩
  refine .read .theAbi fun abi hrun => ?_
  obtain rfl : .win64 = abi := habi.symm.trans (runs_theAbi.mp hrun).1
  split
  · exact .refuse
  · refine .ite (fun _ => .refuse) fun _ => .read .sourceModule fun _ _ =>
      .check fun _ _ => .check fun st hst =>
      callTarget_quietly.tame.bind fun _ _ _ _ => .checkWord fun _ _ =>
      (hreserve _ _).bind fun _ _ _ _ => ?_
    -- Under the saves: bind the arguments, call, copy the result out.
    exact (preserving_tamely habi (by decide) (fun hrax => by simp [Abi.win64] at hrax)
      (fun _ => (bindArguments_confinedly habi fun _ hr => hr).bind fun _ _ _ _ =>
        call_confinedly.bind fun _ _ _ _ =>
          callResult_confinedly) fun _ _ _ _ hp h => h.path hp).imp fun _ _ _ h =>
          ⟨st, hst, h⟩

end InstSelect.Lowering
