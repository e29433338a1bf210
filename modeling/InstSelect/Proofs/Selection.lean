import InstSelect.Proofs.ClobberingCode

/-!
# Whole instructions

The code of branches and returns, and what lowering any instruction does: it appends code
along a path and then binds the instruction's value, at most once and only to this
instruction. Apart from returns the code is tame, whatever the instruction.
-/

namespace InstSelect.Lowering

open IR (InstId Inst Opcode)
open Machine (Operand OperandId Op Code Arena Fetch)

variable {env : Env} {s s' t : State} {i : Inst} {u : Unit} {id : InstId} {op : Op}
  {divides : Bool} {α : Type} {r : Option OperandId}

/-! ## Leaving a block -/

theorem lowerBr_code (h : Runs (lowerBr i) env s u s') :
    ∃ x id code, i.operands = [x] ∧ Path env s s' code ∧ s'.vregs = s.vregs ∧
      s'.values.find? x = some id ∧
      ∀ A : Arena, s'.Within A → ∃ o, A.get? id = some o ∧ code = [⟨.jmp, [o]⟩] := by
  simp only [lowerBr, runs_bind, runs_check] at h
  obtain ⟨x, _, ⟨hops, rfl⟩, id, s1, hx, hjmp⟩ := h
  obtain ⟨p1, n1, hb⟩ := resolve_path hx
  obtain ⟨os, p2, n2, -, f2⟩ := emit_path hjmp
  refine ⟨x, id, _, unaryOperand_eq_ok.mp hops, p1.after p2, n2.trans n1, p2.values hb,
    fun A hA => ?_⟩
  obtain ⟨o, ho, rfl⟩ := mapM_single.mp (f2 A hA)
  exact ⟨o, ho, rfl⟩

theorem lowerCondBr_code (h : Runs (lowerCondBr i) env s u s') :
    ∃ c t f idc mid idt idf c1 c2 code n, i.operands = [c, t, f] ∧ Path env s s' code ∧
      s'.values.find? c = some idc ∧ s'.values.find? t = some idt ∧
      s'.values.find? f = some idf ∧ ∀ A : Arena, s'.Within A →
        Fetches A idc mid s.vregs c1 n (fun _ o => o.needsAddress = false) ∧
        ∃ om oc ot of, A.get? mid = some om ∧ Fetch n om oc c2 s'.vregs ∧
          oc.isRegister = true ∧ A.get? idt = some ot ∧ A.get? idf = some of ∧
          code = c1 ++ (c2 ++ [⟨.test, [oc, oc]⟩, ⟨.jcc .e, [of]⟩, ⟨.jmp, [ot]⟩]) := by
  unfold lowerCondBr at h
  split at h
  · next c t f hops =>
    simp only [runs_bind] at h
    obtain ⟨mid, s1, hmid, reg, s2, hreg, idt, s3, ht, idf, s4, hf, _, s5, htest, _, s6,
      hjcc, hjmp⟩ := h
    obtain ⟨idc, c1, p1, hbc, f1⟩ := valueOperand_fetch hmid
    obtain ⟨c2, p2, f2⟩ := intoRegister_fetch hreg
    obtain ⟨p3, n3, hbt⟩ := resolve_path ht
    obtain ⟨p4, n4, hbf⟩ := resolve_path hf
    obtain ⟨os5, p5, n5, -, f5⟩ := emit_path htest
    obtain ⟨os6, p6, n6, -, f6⟩ := emit_path hjcc
    obtain ⟨os7, p7, n7, -, f7⟩ := emit_path hjmp
    have hend := p5.trans (p6.trans p7)
    have htail := p2.trans (p3.after (p4.after hend))
    refine ⟨c, t, f, idc, mid, idt, idf, c1, c2, _, s1.vregs, hops, p1.trans htail,
      htail.values hbc, hend.values (p4.values hbt), hend.values hbf, fun A hA => ?_⟩
    have w6 := p7.within hA
    have w5 := p6.within w6
    have w2 := p3.within (p4.within (p5.within w5))
    obtain ⟨om, oc, hom, hoc, hfetch, hisreg⟩ := f2 A w2
    obtain ⟨x, y, hx, hy, rfl⟩ := mapM_pair.mp (f5 A w5)
    obtain ⟨of, hof, rfl⟩ := mapM_single.mp (f6 A w6)
    obtain ⟨ot, hot, rfl⟩ := mapM_single.mp (f7 A hA)
    cases hoc.symm.trans hx
    cases hoc.symm.trans hy
    have hvregs : s'.vregs = s2.vregs := by rw [n7, n6, n5, n4, n3]
    rw [← hvregs] at hfetch
    exact ⟨f1 A (p2.within w2), om, oc, ot, of, hom, hfetch, hisreg, hot, hof, rfl⟩
  · exact absurd (runs_check.mp h).1 violate_ne_ok

/-- The code of a return: a value travels in the return register. -/
theorem lowerRet_code (h : Runs (lowerRet i) env s u s') :
    ∃ c code, s.current = some c ∧ Path env s s' code ∧ s'.vregs = s.vregs ∧
      ((i.operands = [] ∧ code = [⟨.ret, []⟩]) ∨
        ∃ x id, i.operands = [x] ∧ c.machine.ret ≠ .void ∧ s'.values.find? x = some id ∧
          ∀ A : Arena, s'.Within A → ∃ o, A.get? id = some o ∧
            code = [⟨o.copyOp, [⟨.phys env.abi.returnRegister, c.machine.ret⟩, o]⟩,
              ⟨.ret, []⟩]) := by
  simp only [lowerRet, runs_bind, runs_machine] at h
  obtain ⟨_, _, ⟨c, hc, rfl, rfl⟩, h⟩ := h
  have hret : ∀ {t : State}, Runs (emit .ret []) env t u s' →
      Path env t s' [⟨.ret, []⟩] ∧ s'.vregs = t.vregs := by
    intro t hrun
    obtain ⟨os, hpath, hvregs, hacc, -⟩ := emit_path hrun
    cases os with
    | nil => exact ⟨hpath, hvregs⟩
    | cons x xs => cases xs <;> simp [Op.accepts] at hacc
  split at h
  · next hops =>
    obtain ⟨p1, n1⟩ := hret h
    exact ⟨c, _, hc, p1, n1, .inl ⟨hops, rfl⟩⟩
  · next x hops =>
    simp only [runs_bind, runs_check, require_eq_ok, decide_eq_true_eq, runs_theAbi] at h
    obtain ⟨_, _, ⟨hvoid, rfl⟩, id, s1, hx, _, _, ⟨rfl, rfl⟩, ret, s2, hphys, _, s3,
      hcopy, hrun⟩ := h
    obtain ⟨p1, n1, hb⟩ := resolve_path hx
    have a2 := physReg_adds hphys
    obtain ⟨code, p3, n3, f3⟩ := materialize_path hcopy
    obtain ⟨p4, n4⟩ := hret hrun
    refine ⟨c, _, hc, p1.after (a2.path.after (p3.trans p4)), ?_,
      .inr ⟨x, id, hops, hvoid,
        p4.values (p3.values (a2.path.values hb)), fun A hA => ?_⟩⟩
    · rw [n4, n3, a2.vregs, n1]
    · have w3 := p4.within hA
      obtain ⟨d, o, hd, ho, rfl⟩ := f3 A w3
      cases (a2.get A (p3.within w3)).symm.trans hd
      exact ⟨o, ho, rfl⟩
  · simp only [runs_bind, runs_check] at h
    obtain ⟨_, _, ⟨hv, -⟩, -⟩ := h
    exact absurd hv violate_ne_ok

/-! ## Instructions -/

/--
What is bound after the code of an instruction: nothing, its result, or a phi's register.
-/
inductive Binds (id : InstId) (i : Inst) (t : State) : State → Prop
  | nothing : Binds id i t t
  | result (o : OperandId) (unbound : t.values.find? i.value = none) :
      Binds id i t { t with values := t.values.insert i.value o }
  | phi (o : OperandId) (unbound : t.values.find? i.value = none)
      (isPhi : i.opcode = .phi) :
      Binds id i t { t with
        values := t.values.insert i.value o, pendingPhis := t.pendingPhis ++ [id] }

theorem Binds.current (h : Binds id i t s') : s'.current = t.current := by
  cases h <;> rfl

/-- Only divisions may fault. -/
def dividesOp : Opcode → Bool
  | .div | .rem => true
  | _ => false

/-- The results of instructions that compute a value. -/
theorem some_map {x : LowerM α} {r : Option α} (h : Runs (some <$> x) env s r s') :
    ∃ a, r = some a ∧ Runs x env s a s' := by
  obtain ⟨a, ha, rfl⟩ := runs_map.mp h
  exact ⟨a, rfl, ha⟩

theorem none_map {x : LowerM α} (h : Runs ((fun _ => none) <$> x) env s r s') :
    r = none ∧ ∃ a, Runs x env s a s' := by
  obtain ⟨a, ha, rfl⟩ := runs_map.mp h
  exact ⟨rfl, a, ha⟩

theorem lowerBinary_tamely {id : OperandId} (hop : op.clobbersNothing = true)
    (h : Runs (lowerBinary op i) env s id s') : Tamely env divides s.vregs s s' := by
  obtain ⟨st, l, r, idl, idr, code, -, -, hpath, -, -, hcode⟩ := lowerBinary_code h
  refine ⟨code, hpath, fun A args hA _ => .quiet ?_⟩
  obtain ⟨ol, or, d, -, -, -, hform⟩ := hcode A hA
  exact hform.quiet hop

theorem lowerShift_tamely {right : Bool} {id : OperandId} (habi : env.abi = .win64)
    (h : Runs (lowerShift right i) env s id s') : Tamely env divides s.vregs s s' := by
  obtain ⟨st, l, a, ty, idl, ida, code, -, -, -, hpath, -, -, hcode⟩ :=
    lowerShift_code habi h
  refine ⟨code, hpath, fun A args hA hargs => ?_⟩
  obtain ⟨ol, oa, d, -, -, -, hform⟩ := hcode A args hA hargs
  refine hform.tame ?_ ?_
  all_goals
    unfold shiftOp
    split
    · split <;> rfl
    · rfl

theorem lowerCompare_tamely {predicate : IR.Predicate} {id : OperandId}
    (h : Runs (lowerCompare predicate i) env s id s') :
    Tamely env divides s.vregs s s' := by
  obtain ⟨l, r, ty, st, idl, idr, code, -, -, -, hpath, -, -, hcode⟩ :=
    lowerCompare_code h
  refine ⟨code, hpath, fun A args hA _ => .quiet ?_⟩
  obtain ⟨ol, or, d, -, -, -, hform⟩ := hcode A hA
  exact hform.quiet

theorem lowerTrunc_tamely {id : OperandId} (h : Runs (lowerTrunc i) env s id s') :
    Tamely env divides s.vregs s s' := by
  obtain ⟨st, x, idx, code, -, -, hpath, -, hcode⟩ := lowerTrunc_code h
  refine ⟨code, hpath, fun A args hA _ => .quiet ?_⟩
  obtain ⟨ox, d, -, -, hform⟩ := hcode A hA
  exact hform.quiet

theorem lowerExtend_tamely {id : OperandId} (hop : op.clobbersNothing = true)
    (h : Runs (lowerExtend op i) env s id s') : Tamely env divides s.vregs s s' := by
  obtain ⟨st, x, idx, code, -, -, hpath, -, hcode⟩ := lowerExtend_code h
  refine ⟨code, hpath, fun A args hA _ => .quiet ?_⟩
  obtain ⟨ox, d, -, -, hform⟩ := hcode A hA
  exact hform.quiet hop

theorem lowerReinterpret_tamely {id : OperandId}
    (h : Runs (lowerReinterpret i) env s id s') :
    Tamely env divides s.vregs s s' := by
  obtain ⟨st, x, idx, code, -, -, hpath, -, hcode⟩ := lowerReinterpret_code h
  exact .of_quietly (Quietly.of_fetch (Nat.le_refl _) hpath hcode)

/-- Code that only leaves the block is quiet. -/
theorem quiet_of_leaving {n : Nat} {os : List Operand} (hop : op.isTerminator = true) :
    Code.Quiet n ⟨op, os⟩ := by
  cases op with
  | jcc cond | jmp | ret => exact ⟨rfl, fun _ hd => by cases hd⟩
  | _ => cases hop

theorem lowerBr_tamely (h : Runs (lowerBr i) env s u s') :
    Tamely env divides s.vregs s s' := by
  obtain ⟨x, id, code, -, hpath, -, -, hcode⟩ := lowerBr_code h
  refine ⟨code, hpath, fun A args hA _ => .quiet fun c hc => ?_⟩
  obtain ⟨o, -, rfl⟩ := hcode A hA
  obtain rfl := List.mem_singleton.mp hc
  exact quiet_of_leaving rfl

theorem lowerCondBr_tamely (h : Runs (lowerCondBr i) env s u s') :
    Tamely env divides s.vregs s s' := by
  obtain ⟨c, t, f, idc, mid, idt, idf, c1, c2, code, n, -, hpath, -, -, -, hcode⟩ :=
    lowerCondBr_code h
  refine ⟨code, hpath, fun A args hA _ => .quiet fun x hx => ?_⟩
  obtain ⟨⟨_, _, -, -, hfetch, -⟩, om, oc, ot, of, -, hfetch', -, -, -, rfl⟩ := hcode A hA
  simp only [List.mem_append, List.mem_cons, List.not_mem_nil, or_false] at hx
  rcases hx with hx | hx | rfl | rfl | rfl
  · exact hfetch.quiet x hx
  · exact (hfetch'.quiet x hx).mono hfetch.le
  · exact ⟨rfl, fun _ hd => by cases hd⟩
  · exact quiet_of_leaving rfl
  · exact quiet_of_leaving rfl

/-- A phi gets a register and waits for its copies. -/
theorem runs_lowerPhi (h : Runs (lowerPhi id i) env s u s') :
    ∃ st dst t, scalarStorage i.ty "phi" = .ok st ∧ Runs (newVReg st) env s dst t ∧
      t.values.find? i.value = none ∧
      s' = { t with
        values := t.values.insert i.value dst
        pendingPhis := t.pendingPhis ++ [id] } := by
  simp only [lowerPhi, runs_bind, runs_check, runs_bindValue, runs_modify] at h
  obtain ⟨st, _, ⟨hst, rfl⟩, dst, t, hdst, _, _, ⟨hunbound, rfl⟩, rfl⟩ := h
  exact ⟨st, dst, t, hst, hdst, hunbound, rfl⟩

/-- The code that an instruction selects, phis and returns apart. -/
theorem selectInst_tamely (habi : env.abi = .win64) (hphi : i.opcode ≠ .phi)
    (hret : i.opcode ≠ .ret) (h : Runs (selectInst id i) env s r s') :
    Tamely env (dividesOp i.opcode) s.vregs s s' := by
  unfold selectInst at h
  cases hop : i.opcode with
  | add | sub | mul | and | or | xor =>
    simp only [hop] at h
    obtain ⟨a, -, hrun⟩ := some_map h
    exact lowerBinary_tamely rfl hrun
  | div | rem =>
    simp only [hop] at h
    obtain ⟨a, -, hrun⟩ := some_map h
    exact (lowerDivision_tamely habi (Nat.le_refl s.vregs) hrun).1
  | shl | shr =>
    simp only [hop] at h
    obtain ⟨a, -, hrun⟩ := some_map h
    exact lowerShift_tamely habi hrun
  | cmp predicate =>
    simp only [hop] at h
    obtain ⟨a, -, hrun⟩ := some_map h
    exact lowerCompare_tamely hrun
  | alloca =>
    simp only [hop] at h
    obtain ⟨a, -, hrun⟩ := some_map h
    obtain ⟨_, _, _, _, -, hadds⟩ := lowerAlloca_adds hrun
    exact .of_quietly (.of_path hadds.path)
  | load =>
    simp only [hop] at h
    obtain ⟨a, -, hrun⟩ := some_map h
    exact .of_quietly (lowerLoad_quietly (Nat.le_refl s.vregs) hrun).1
  | store =>
    simp only [hop] at h
    obtain ⟨-, u, hrun⟩ := none_map h
    exact (lowerStore_tamely (Nat.le_refl s.vregs) hrun).1
  | gep =>
    simp only [hop] at h
    obtain ⟨a, -, hrun⟩ := some_map h
    exact .of_quietly (lowerGep_quietly hrun).1
  | phi => exact absurd hop hphi
  | call =>
    simp only [hop] at h
    exact (lowerCall_tamely habi (Nat.le_refl s.vregs) h).1
  | trunc =>
    simp only [hop] at h
    obtain ⟨a, -, hrun⟩ := some_map h
    exact lowerTrunc_tamely hrun
  | zext | sext =>
    simp only [hop] at h
    obtain ⟨a, -, hrun⟩ := some_map h
    exact lowerExtend_tamely rfl hrun
  | ptrToInt | intToPtr | bitcast =>
    simp only [hop] at h
    obtain ⟨a, -, hrun⟩ := some_map h
    exact lowerReinterpret_tamely hrun
  | br =>
    simp only [hop] at h
    obtain ⟨-, u, hrun⟩ := none_map h
    exact lowerBr_tamely hrun
  | condBr =>
    simp only [hop] at h
    obtain ⟨-, u, hrun⟩ := none_map h
    exact lowerCondBr_tamely hrun
  | ret => exact absurd hop hret
  | fadd | fsub | fmul | fdiv | fpToSi | siToFp | fpExt | fpTrunc =>
    simp only [hop] at h
    cases (runs_check.mp h).1

/-- Lowering an instruction selects its code and binds its result. -/
theorem runs_lowerInst (h : Runs (lowerInst id) env s u s') :
    ∃ i r t, env.module.inst id = .ok i ∧ Runs (selectInst id i) env s r t ∧
      match r with
      | some o => t.values.find? i.value = none ∧
          s' = { t with values := t.values.insert i.value o }
      | none => s' = t := by
  simp only [lowerInst, runs_bind, runs_sourceModule, runs_check] at h
  obtain ⟨_, _, ⟨rfl, rfl⟩, i, _, ⟨hi, rfl⟩, r, t, hselect, h⟩ := h
  refine ⟨i, r, t, hi, hselect, ?_⟩
  cases r with
  | some o => exact runs_bindValue.mp h
  | none => exact (runs_pure.mp h).2.symm

/-- The code of every instruction but a return is tame. -/
theorem lowerInst_tamely (habi : env.abi = .win64) (hi : env.module.inst id = .ok i)
    (hret : i.opcode ≠ .ret) (h : Runs (lowerInst id) env s u s') :
    ∃ t, Tamely env (dividesOp i.opcode) s.vregs s t ∧ Binds id i t s' := by
  obtain ⟨i', r, t, hi', hselect, hbind⟩ := runs_lowerInst h
  cases hi.symm.trans hi'
  by_cases hphi : i.opcode = .phi
  · simp only [selectInst, hphi] at hselect
    obtain ⟨rfl, v, hrun⟩ := none_map hselect
    obtain ⟨st, dst, t', -, hdst, hunbound, rfl⟩ := runs_lowerPhi hrun
    obtain ⟨-, -, -, hpath, -⟩ := newVReg_adds hdst
    subst hbind
    exact ⟨t', .of_quietly (.of_path hpath), .phi dst hunbound hphi⟩
  · refine ⟨t, selectInst_tamely habi hphi hret hselect, ?_⟩
    cases r with
    | some o =>
      obtain ⟨hunbound, rfl⟩ := hbind
      exact .result o hunbound
    | none =>
      subst hbind
      exact .nothing

/-- Lowering any instruction appends code along a path and then binds its value. -/
theorem lowerInst_path (habi : env.abi = .win64) (h : Runs (lowerInst id) env s u s') :
    ∃ i t code, env.module.inst id = .ok i ∧ Path env s t code ∧ Binds id i t s' := by
  obtain ⟨i, r, t, hi, hselect, hbind⟩ := runs_lowerInst h
  by_cases hret : i.opcode = .ret
  · simp only [selectInst, hret] at hselect
    obtain ⟨rfl, v, hrun⟩ := none_map hselect
    obtain ⟨c, code, -, hpath, -⟩ := lowerRet_code hrun
    subst hbind
    exact ⟨i, _, code, hi, hpath, .nothing⟩
  · obtain ⟨t', ⟨code, hpath, -⟩, hbinds⟩ := lowerInst_tamely habi hi hret h
    exact ⟨i, t', code, hi, hpath, hbinds⟩

end InstSelect.Lowering
