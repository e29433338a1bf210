import InstSelect.Proofs.ResultClasses
import InstSelect.Proofs.IntegerSteps
import InstSelect.Proofs.WholeModules

/-!
# Widths of recorded operands

A value that was lowered is bound to an operand, and later code reads its width off that
operand. Every instruction that makes a register gives it the class of its type. A cast
that only changes how bits are viewed makes none: its value is bound to the operand of the
value it views, and keeps that one's width. So the width of a recorded operand is the
width of the value at the end of the chain of casts, and is the width of the value's own
type exactly if these two agree.
-/

namespace InstSelect.IR

namespace Module

variable {m : Module} {u v w : ValueId}

/-- The value whose bits a cast passes on. -/
def viewed? (m : Module) (v : ValueId) : Option ValueId :=
  match m.value v with
  | .ok ⟨_, .instruction k⟩ =>
    match m.inst k with
    | .ok i => if i.opcode.isReinterpret then i.operands.head? else none
    | .error _ => none
  | _ => none

/-- `w` is at the end of the chain of casts that starts with `v`. -/
inductive Views (m : Module) : ValueId → ValueId → Prop
  | self {v : ValueId} (root : m.viewed? v = none) : Views m v v
  | through {v u w : ValueId} (cast : m.viewed? v = some u) (rest : Views m u w) :
      Views m v w

/-- A chain of casts has one end. -/
theorem Views.unique {w' : ValueId} (h : m.Views v w) (h' : m.Views v w') : w = w' := by
  induction h with
  | self root =>
    cases h' with
    | self => rfl
    | through cast _ =>
      rw [root] at cast
      cases cast
  | through cast _ ih =>
    cases h' with
    | self root =>
      rw [root] at cast
      cases cast
    | through cast' rest' =>
      cases cast.symm.trans cast'
      exact ih rest'

/-- All instructions have types that their opcodes can have. -/
def Typed (m : Module) : Prop := ∀ k i, m.inst k = .ok i → i.Typed

end Module

end InstSelect.IR

namespace InstSelect.Lowering

open IR (ValueId InstId Inst)
open Machine (Storage Operand OperandId)

variable {env : Env} {func : IR.FuncId} {s s' t : State} {c : Current} {v : ValueId}
  {id : OperandId} {k : InstId} {i : Inst} {u : Unit} {mb : Machine.BlockId}

/-! ## Widths of bound values -/

/-- An operand as wide as the value at the end of a chain of casts. -/
def Fits (m : IR.Module) (v : ValueId) (o : Operand) : Prop :=
  ∃ ty, (∃ w, m.Views v w ∧ m.valueTy w = .ok ty) ∧ Carries ty o

/-- Arguments have the widths of the parameters, and bound values fit. -/
structure Sized (env : Env) (func : IR.FuncId) (s : State) (c : Current) : Prop where
  current : s.current = some c
  source : c.source = func
  args : ∀ (j : Nat) (id : OperandId), c.machine.args[j]? = some id →
    ∃ f ty, env.module.function func = .ok f ∧ f.sig.params[j]? = some ty ∧
    s.Stands id (Carries ty)
  values : ∀ v id, s.values.find? v = some id → s.Stands id (Fits env.module v)

namespace Sized

/-- A value that needs no code has an operand of its own width. -/
theorem leaf_fits (hm : env.module.Linked) (h : Sized env func s c)
    (hleaf : Leaf env s c v id) :
    s.Stands id (Fits env.module v) := by
  have hnames : ∀ {o : Operand}, c.machine.Names id o → s.Stands id (· = o) := fun hn =>
    .of_get h.current fun A hA => hn.get? (hA c h.current)
  have hfits : ∀ {ty kind o}, env.module.value v = .ok ⟨ty, kind⟩ →
    (∀ k, kind ≠ .instruction k) →
      Carries ty o → Fits env.module v o := by
    intro ty kind o hv hkind ho
    refine ⟨ty, ⟨v, .self ?_, valueTy_eq_ok.mpr ⟨kind, hv⟩⟩, ho⟩
    unfold IR.Module.viewed?
    rw [hv]
    cases kind with
    | instruction k => exact absurd rfl (hkind k)
    | _ => rfl
  cases hleaf with
  | argument ty index value arg =>
    obtain ⟨f, ty', hf, hty', hid⟩ := h.args _ _ arg
    obtain ⟨f', hf', -, hty⟩ := hm.values _ _ (IR.Module.value_eq_ok.mp value)
    rw [h.source] at hf'
    cases (IR.Module.function_eq_ok.mp hf).symm.trans hf'
    cases hty'.symm.trans hty
    exact hid.imp fun o => hfits value (by simp)
  | constant ty k n st value word storage names =>
    refine (hnames names).imp ?_
    rintro o rfl
    exact hfits value (by simp) (carries_of_storage storage ⟨rfl, nofun⟩)
  | function ty g f name value function symbol names =>
    obtain ⟨f', -, -, rfl⟩ := hm.values _ _ (IR.Module.value_eq_ok.mp value)
    refine (hnames names).imp ?_
    rintro o rfl
    exact hfits value (by simp) ⟨⟨.ptr, rfl, rfl⟩, fun _ => rfl⟩
  | global ty g data value global names =>
    obtain ⟨d, -, -, rfl⟩ := hm.values _ _ (IR.Module.value_eq_ok.mp value)
    refine (hnames names).imp ?_
    rintro o rfl
    exact hfits value (by simp) ⟨⟨.ptr, rfl, rfl⟩, fun _ => rfl⟩
  | block ty b mb value block names =>
    obtain ⟨d, -, -, rfl⟩ := hm.values _ _ (IR.Module.value_eq_ok.mp value)
    refine (hnames names).imp ?_
    rintro o rfl
    exact hfits value (by simp) (carries_of_storage rfl ⟨rfl, nofun⟩)

/--
Arguments and old bindings keep their widths, so only new bindings have to be looked at.
-/
theorem persist {c' : Current} (h : Sized env func s c) (hleads : Leads s s' c c')
    (hc' : s'.current = some c') (hargs : c'.machine.args = c.machine.args)
    (hvalues : ∀ v id, s'.values.find? v = some id →
      s.values.find? v = some id ∨ s'.Stands id (Fits env.module v)) :
    Sized env func s' c' where
  current := hc'
  source := hleads.source.trans h.source
  args := by
    intro j id hid
    obtain ⟨f, ty, hf, hty, hstands⟩ := h.args j id (hargs ▸ hid)
    exact ⟨f, ty, hf, hty, hleads.stands h.current hc' hstands⟩
  values := by
    intro v id hv
    rcases hvalues v id hv with hold | hnew
    · exact hleads.stands h.current hc' (h.values v id hold)
    · exact hnew

theorem grow {code : List Machine.Code} (hm : env.module.Linked) (h : Sized env func s c)
    (hg : Grow env s s' code) : ∃ c', Sized env func s' c' := by
  obtain ⟨c', hc', hgrown⟩ := hg.grown h.current
  refine ⟨c', h.persist (.of_grown hgrown) hc' hgrown.args fun v id hv => ?_⟩
  cases hg with
  | @value d v' id' current unbound leaf =>
    cases h.current.symm.trans current
    rw [Bindings.find?_insert] at hv
    split at hv
    · next heq =>
      subst heq
      cases hv
      exact .inr ((h.leaf_fits hm leaf).of_current rfl)
    · exact .inl hv
  | operand | inst | block | reserve => exact .inl hv

/-- Recorded widths are right after whatever selection does. -/
theorem later (hm : env.module.Linked) (h : Sized env func s c) (hf : Follows env s s') :
    ∃ c', Sized env func s' c' := by
  induction hf generalizing c with
  | refl => exact ⟨c, h⟩
  | grow hg => exact h.grow hm hg
  | @edit s d blocks current size names =>
    cases h.current.symm.trans current
    have hleads : Leads s (s.withMachine d { d.machine with blocks }) d
        { d with machine := { d.machine with blocks } } :=
      { Leads.refl s d with room := Nat.le_of_eq size.symm }
    exact ⟨_, h.persist hleads rfl rfl fun _ _ hv => .inl hv⟩
  | trans _ _ ih ih' =>
    obtain ⟨d, hd⟩ := ih h
    exact ih' hd

/-- One more value is bound, to an operand that fits. -/
theorem bind {ps : List InstId} (h : Sized env func s c)
    (hfits : s.Stands id (Fits env.module v)) :
    Sized env func { s with values := s.values.insert v id, pendingPhis := ps } c where
  current := h.current
  source := h.source
  args j id hid := by
    obtain ⟨f, ty, hf, hty, hstands⟩ := h.args j id hid
    exact ⟨f, ty, hf, hty, hstands.of_current rfl⟩
  values v' id' hv := by
    rw [Bindings.find?_insert] at hv
    split at hv
    · next heq =>
      subst heq
      cases hv
      exact hfits.of_current rfl
    · exact (h.values v' id' hv).of_current rfl

end Sized

/-! ## Results -/

/-- The value of an instruction has a chain of casts of its own length. -/
theorem viewed?_of_inst (hm : env.module.Linked) (hi : env.module.inst k = .ok i) :
    env.module.viewed? i.value =
      if i.opcode.isReinterpret then i.operands.head? else none := by
  unfold IR.Module.viewed?
  rw [value_of_inst hm hi]
  simp only [hi]

theorem selectInst_reinterpret (k : InstId) (h : i.opcode.isReinterpret = true) :
    selectInst k i = some <$> lowerReinterpret i := by
  obtain ⟨opcode, operands, ty, block, value⟩ := i
  cases opcode with
  | ptrToInt | intToPtr | bitcast => rfl
  | _ => cases h

/-- The result of an instruction fits its value. -/
theorem selectInst_fits (hm : env.module.Linked) (htyped : env.module.Typed)
    (hs : Sized env func s c) (hi : env.module.inst k = .ok i)
    (h : Runs (selectInst k i) env s (some id) s') :
    s'.Stands id (Fits env.module i.value) := by
  have hview := viewed?_of_inst hm hi
  have hty := valueTy_eq_ok.mpr ⟨_, value_of_inst hm hi⟩
  cases hop : i.opcode.isReinterpret with
  | false =>
    rw [hop] at hview
    exact (selectInst_carries (htyped k i hi) hop h).imp fun o ho =>
      ⟨i.ty, ⟨i.value, .self hview, hty⟩, ho⟩
  | true =>
    rw [hop] at hview
    rw [selectInst_reinterpret k hop] at h
    obtain ⟨a, heq, hrun⟩ := some_map h
    cases heq
    simp only [lowerReinterpret, runs_bind, runs_check] at hrun
    obtain ⟨_, _, ⟨-, rfl⟩, x, _, ⟨hx, rfl⟩, r, t, hresolve, hinto⟩ := hrun
    obtain ⟨hpath, -, hbound⟩ := resolve_path hresolve
    obtain ⟨d, hd⟩ := hs.later hm (.of_path hpath)
    rw [if_pos rfl, unaryOperand_eq_ok.mp hx] at hview
    refine (intoRegister_carries (hd.values x r hbound) hinto).imp ?_
    rintro o ⟨ty, ⟨w, hw, hwty⟩, ho⟩
    exact ⟨ty, ⟨w, .through hview hw, hwty⟩, ho⟩

/-! ## One function -/

theorem openFunction_args {alloc : Machine.Allocator} {abi : Abi} {f : IR.Function}
    {m : Machine.Function} (h : openFunction abi f = .ok m) {j : Nat}
    (hid : m.args[j]? = some id) :
    ∃ ty r st, f.sig.params[j]? = some ty ∧ storageOf ty = .ok st ∧
      m.Names id ⟨.phys r, st⟩ := by
  obtain ⟨ret, argTypes, sts, -, -, rfl, hlen, hsts⟩ := openFunction_eq_ok h
  obtain ⟨hj, rfl⟩ := getElem?_argIds hid
  obtain ⟨-, rfl⟩ | ⟨-, -, hsts⟩ := hsts
  · cases hj
  · obtain ⟨hlen', hsts⟩ := List.forall₂_iff_get.mp hsts
    have hoperand : (argOperands abi.argRegisters sts)[j]? =
        some ⟨.phys abi.argRegisters[j], sts[j]⟩ := by
      simp [argOperands, hj, Nat.lt_of_lt_of_le hj hlen]
    exact ⟨_, _, _, List.getElem?_eq_getElem (hlen' ▸ hj),
      storageOf_of_scalarStorage (hsts j _ hj), j,
      (List.getElem?_toArray ..).trans hoperand, rfl⟩

theorem sized_of_beginFunction (h : Runs (beginFunction func) env s u s') :
    ∃ c, Sized env func s' c := by
  obtain ⟨f, m, hf, hopen, rfl⟩ := runs_beginFunction h
  refine ⟨⟨func, m, none⟩, rfl, rfl, fun j id hid => ?_, fun v id hv => by cases hv⟩
  obtain ⟨ty, r, st, hty, hst, hn⟩ := openFunction_args hopen hid
  refine ⟨f, ty, hf, hty, (State.Stands.of_get rfl fun A hA => hn.get? (hA _ rfl)).imp ?_⟩
  rintro o rfl
  exact carries_of_storage hst ⟨rfl, nofun⟩

/-- Lowering an instruction keeps recorded widths right. -/
theorem Sized.lowerInst (hm : env.module.Linked) (htyped : env.module.Typed)
    (hs : Settled env s c) (h : Sized env func s c)
    (hrun : Runs (lowerInst k) env s u s') :
    ∃ c', Sized env func s' c' := by
  obtain ⟨i, r, t, hi, hselect, hbind⟩ := runs_lowerInst hrun
  by_cases hphi : i.opcode = .phi
  · simp only [selectInst, hphi] at hselect
    obtain ⟨rfl, w, hphiRun⟩ := none_map hselect
    subst hbind
    obtain ⟨st, dst, t, hst, hnew, -, rfl⟩ := runs_lowerPhi hphiRun
    obtain ⟨r, -, -, hpath, hdst⟩ := newVReg_stands hnew
    obtain ⟨d, hd⟩ := h.later hm (.of_path hpath)
    have hview := viewed?_of_inst hm hi
    rw [hphi] at hview
    refine ⟨d, hd.bind (hdst.imp ?_)⟩
    rintro o rfl
    exact ⟨i.ty, ⟨i.value, .self hview, valueTy_eq_ok.mpr ⟨_, value_of_inst hm hi⟩⟩,
      carries_of_storage (storageOf_of_scalarStorage hst)
        ⟨rfl, fun haddress => by cases haddress⟩⟩
  · have hu : Underway env s.vregs s := ⟨⟨c, hs⟩, Nat.le_refl _⟩
    obtain ⟨_, ⟨code, hpath, -⟩, -⟩ := selectInst_tidily hphi hu hselect
    obtain ⟨d, hd⟩ := h.later hm (.of_path hpath)
    cases r with
    | none =>
      subst hbind
      exact ⟨d, hd⟩
    | some o =>
      obtain ⟨-, rfl⟩ := hbind
      exact ⟨d, hd.bind (selectInst_fits hm htyped h hi hselect)⟩

theorem Sized.entered {b : IR.BlockId} (hm : env.module.Linked) (h : Sized env func s c)
    (henter : Runs (blockFor b) env s mb t)
    (hdirect : Runs (setInsertionBlock mb) env t u s') :
    ∃ c', Sized env func s' c' := by
  obtain ⟨hpath, -⟩ := blockFor_path henter
  obtain ⟨d, hd⟩ := h.later hm (.of_path hpath)
  obtain rfl := runs_setInsertionBlock.mp hdirect
  rw [hd.current]
  have hleads : Leads t { t with current := some { d with block := some mb } } d
      { d with block := some mb } :=
    { Leads.refl t d with }
  exact ⟨_, hd.persist hleads rfl rfl fun _ _ hv => .inl hv⟩

theorem Sized.laidOut (h : Sized env func s c)
    (hrun : Runs (change (·.appendBlock mb)) env s u s') :
    ∃ c', Sized env func s' c' := by
  obtain ⟨d, f, hd, happend, rfl⟩ := runs_change.mp hrun
  cases h.current.symm.trans hd
  obtain ⟨-, -, -, -, rfl⟩ := Machine.Function.appendBlock_eq_ok.mp happend
  have hleads : Leads s
    (s.withMachine c { c.machine with layout := c.machine.layout ++ [mb] }) c
      { c with machine := { c.machine with layout := c.machine.layout ++ [mb] } } :=
    { Leads.refl s c with }
  exact ⟨_, h.persist hleads rfl rfl fun _ _ hv => .inl hv⟩

theorem Reached.settled (h : Reached env func s) : ∃ c, Settled env s c := by
  induction h with
  | opened run =>
    obtain ⟨c, hc, -⟩ := settled_of_beginFunction run
    exact ⟨c, hc⟩
  | entered _ block run ih =>
    obtain ⟨c, hc⟩ := ih
    obtain ⟨c', hc', -⟩ := enter_block hc block run
    exact ⟨c', hc'⟩
  | lowered _ run ih =>
    obtain ⟨c, hc⟩ := ih
    obtain ⟨-, -, c', -, -, -, -, hc', -⟩ := lowerInst_lowers hc run
    exact ⟨c', hc'⟩
  | resolved _ run ih =>
    obtain ⟨c, hc⟩ := ih
    exact hc.later (.of_path (resolve_path run).1)
  | laidOut _ run ih =>
    obtain ⟨c, hc⟩ := ih
    obtain ⟨c', hc', -⟩ := leave_block hc run
    exact ⟨c', hc'⟩

/-- Recorded widths are right between any two instructions. -/
theorem Reached.sized (hm : env.module.Linked) (htyped : env.module.Typed)
    (h : Reached env func s) :
    ∃ c, Sized env func s c := by
  induction h with
  | opened run => exact sized_of_beginFunction run
  | entered _ block run ih =>
    obtain ⟨c, hc⟩ := ih
    exact hc.entered hm block run
  | lowered before run ih =>
    obtain ⟨c, hc⟩ := ih
    obtain ⟨d, hd⟩ := before.settled
    cases hc.current.symm.trans hd.current
    exact hc.lowerInst hm htyped hd run
  | resolved _ run ih =>
    obtain ⟨c, hc⟩ := ih
    exact hc.later hm (.of_path (resolve_path run).1)
  | laidOut _ run ih =>
    obtain ⟨c, hc⟩ := ih
    exact hc.laidOut run

/--
All states of the lowering of one function, within instructions and while copies are
placed as well.
-/
inductive Visited (env : Env) (func : IR.FuncId) : State → Prop
  | reached {s : State} (reached : Reached env func s) : Visited env func s
  | taken {s : State} (phis : List InstId) (before : Visited env func s) :
      Visited env func { s with pendingPhis := phis }
  | later {s s' : State} (before : Visited env func s) (follows : Follows env s s') :
      Visited env func s'

theorem Visited.sized (hm : env.module.Linked) (htyped : env.module.Typed)
    (h : Visited env func s) :
    ∃ c, Sized env func s c := by
  induction h with
  | reached h => exact h.sized hm htyped
  | taken phis _ ih =>
    obtain ⟨c, hc⟩ := ih
    exact ⟨c, hc.persist { Leads.refl _ c with } hc.current rfl fun _ _ hv => .inl hv⟩
  | later _ hf ih =>
    obtain ⟨c, hc⟩ := ih
    exact hc.later hm hf

theorem Segments.reached {segs : List Segment} (h : Segments env s segs s')
    (hs : Reached env func s) :
    Reached env func s' := by
  induction h with
  | nil => exact hs
  | cons run _ _ ih => exact ih (hs.lowered run)

theorem Parts.reached {parts : List Part} (h : Parts env s parts s')
    (hs : Reached env func s) :
    Reached env func s' := by
  induction h with
  | nil => exact hs
  | cons enter direct _ segments _ layout _ ih =>
    exact ih ((segments.reached (hs.entered enter direct)).laidOut layout)

/--
A recorded operand has the width of its value's type exactly if the value at the end of
the chain of casts has that width. So it does for every value that is not such a cast.
-/
theorem recorded_width {st : Storage} {ty : IR.Ty} (hbuilt : IR.Built env.module)
    (hids : env.module.values.size ≤ 2 ^ 32) (htyped : env.module.Typed)
    (hs : Visited env func s) (hsmall : s.Small) (hbound : s.values.find? v = some id)
    (hty : env.module.valueTy v = .ok ty) (hst : storageOf ty = .ok st) :
    ∃ o, s.Holds id o ∧
      (o.storage.bits = st.bits ↔
        ∃ w ty' st', env.module.Views v w ∧ env.module.valueTy w = .ok ty' ∧
        storageOf ty' = .ok st' ∧ st'.bits = st.bits) ∧
      (env.module.viewed? v = none → o.storage.bits = st.bits) := by
  obtain ⟨c, hc⟩ := hs.sized (hbuilt.linked hids) htyped
  obtain ⟨o, ho, ty', ⟨w, hw, hwty⟩, ⟨st', hst', hbits⟩, -⟩ :=
    hc.values v id hbound hsmall
  have hend : ∀ {w' ty'' st''}, env.module.Views v w' → env.module.valueTy w' = .ok ty'' →
      storageOf ty'' = .ok st'' → o.storage.bits = st''.bits := by
    intro w' ty'' st'' hw' hwty' hst''
    cases hw.unique hw'
    cases hwty.symm.trans hwty'
    cases hst'.symm.trans hst''
    exact hbits
  refine ⟨o, ho, ⟨fun h => ⟨w, ty', st', hw, hwty, hst', hbits.symm.trans h⟩, ?_⟩,
    fun hroot => ?_⟩
  · rintro ⟨w', ty'', st'', hw', hwty', hst'', heq⟩
    exact (hend hw' hwty' hst'').trans heq
  · exact hend (.self hroot) hty hst

/-! ## A pointer as an integer -/

/-- `f(p)` returns its pointer as a value of a type. -/
def pointerAs (ty : IR.Ty) : IR.Module where
  name := "m"
  values := #[⟨.ptr (.function [.ptr (.int .w8)] ty false), .function ⟨0⟩⟩,
    ⟨.ptr (.int .w8), .argument ⟨0⟩ 0⟩,
    ⟨.void, .block ⟨0⟩⟩, ⟨ty, .instruction ⟨0⟩⟩, ⟨.void, .instruction ⟨1⟩⟩]
  insts := #[⟨.ptrToInt, [⟨1⟩], ty, ⟨0⟩, ⟨3⟩⟩, ⟨.ret, [⟨3⟩], .void, ⟨0⟩, ⟨4⟩⟩]
  blocks := #[⟨⟨0⟩, none, [⟨0⟩, ⟨1⟩], ⟨2⟩⟩]
  functions := #[⟨"f", ⟨[.ptr (.int .w8)], ty, false⟩, [⟨1⟩], [⟨0⟩], false, ⟨0⟩⟩]
  globals := #[]

theorem built_pointerAs (ty : IR.Ty) : IR.Built (pointerAs ty) := by
  have h := (IR.Built.empty "m").addFunction "f" ⟨[.ptr (.int .w8)], ty, false⟩ false
  have h := h.block ⟨0⟩ none rfl
  have h := h.inst ⟨0⟩ .ptrToInt [⟨1⟩] ty rfl
  have h := h.inst ⟨0⟩ .ret [⟨3⟩] .void rfl
  exact h

theorem typed_pointerAs (ty : IR.Ty) : (pointerAs ty).Typed := by
  intro k i hi
  have hget : (pointerAs ty).insts[k.index.toNat]? = some i := IR.Module.inst_eq_ok.mp hi
  have hmem : i ∈ (pointerAs ty).insts := Array.mem_of_getElem? hget
  simp only [pointerAs, List.mem_toArray, List.mem_cons, List.not_mem_nil,
    or_false] at hmem
  rcases hmem with rfl | rfl
  · exact ⟨by simp, by simp⟩
  · exact ⟨by simp, by simp⟩

/-- A value is bound to an operand, and ids tell operands apart. -/
def State.binds (s : State) (v : ValueId) (o : Operand) : Bool :=
  match s.values.find? v, s.current with
  | some id, some c =>
    decide (c.machine.operands.size ≤ 2 ^ 32) && c.machine.operands[id.index.toNat]? =
      some o
  | _, _ => false

theorem State.exists_of_binds {o : Operand} (h : s.binds v o = true) :
    ∃ id, s.values.find? v = some id ∧ s.Holds id o ∧ s.Small := by
  unfold State.binds at h
  split at h
  · next id c hv hc =>
    simp only [Bool.and_eq_true, decide_eq_true_eq] at h
    exact ⟨id, hv, ⟨c, hc, h.2⟩, fun d hd => Option.some.inj (hc.symm.trans hd) ▸ h.1⟩
  · cases h

/-- The state after the cast. -/
theorem pointerAs_visited (ty : IR.Ty) (o : Operand)
    (h : leaves (beginFunction ⟨0⟩) ⟨pointerAs ty, .win64⟩ (.initial "m") (fun _ s =>
      leaves (blockFor ⟨0⟩) ⟨pointerAs ty, .win64⟩ s fun b s =>
      leaves (setInsertionBlock b) ⟨pointerAs ty, .win64⟩ s fun _ s =>
      leaves (lowerInst ⟨0⟩) ⟨pointerAs ty, .win64⟩ s fun _ s => s.binds ⟨3⟩ o) = true) :
    ∃ s id, Visited ⟨pointerAs ty, .win64⟩ ⟨0⟩ s ∧ s.Small ∧
      s.values.find? ⟨3⟩ = some id ∧ s.Holds id o := by
  obtain ⟨_, s1, h1, r1⟩ := runs_of_leaves h
  obtain ⟨b, s2, h2, r2⟩ := runs_of_leaves r1
  obtain ⟨_, s3, h3, r3⟩ := runs_of_leaves r2
  obtain ⟨_, s, h4, r4⟩ := runs_of_leaves r3
  obtain ⟨id, hid, ho, hsmall⟩ := State.exists_of_binds r4
  exact ⟨s, id, .reached (((Reached.opened h1).entered h2 h3).lowered h4),
    hsmall, hid, ho⟩

/-- As an integer of 64 bits, the pointer keeps its width. -/
theorem pointerAs_width :
    ∃ s id o, Visited ⟨pointerAs (.uint .w64), .win64⟩ ⟨0⟩ s ∧
      s.values.find? ⟨3⟩ = some id ∧
      storageOf (.uint .w64) = .ok .i64 ∧ s.Holds id o ∧
        o.storage.bits = Storage.i64.bits := by
  obtain ⟨s, id, hs, hsmall, hid, -⟩ := pointerAs_visited (.uint .w64) ⟨.phys .rcx, .ptr⟩
    (by decide +kernel)
  obtain ⟨o, ho, hwidth, -⟩ :=
    recorded_width (built_pointerAs _) (by decide) (typed_pointerAs _) hs hsmall hid
    rfl (show storageOf (.uint .w64) = .ok .i64 from rfl)
  exact ⟨s, id, o, hs, hid, rfl, ho,
    hwidth.mpr ⟨⟨1⟩, .ptr (.int .w8), .ptr, .through rfl (.self rfl), rfl, rfl, rfl⟩⟩

/--
As an integer of 32 bits it is recorded with 64, and lowering succeeds all the same.
-/
theorem pointerAs_narrow :
    (∃ p, lowerModule (pointerAs (.int .w32)) .win64 = .ok p) ∧
      ∃ s id o, Visited ⟨pointerAs (.int .w32), .win64⟩ ⟨0⟩ s ∧ s.Small ∧
        s.values.find? ⟨3⟩ = some id ∧
        (pointerAs (.int .w32)).valueTy ⟨3⟩ = .ok (.int .w32) ∧
          storageOf (.int .w32) = .ok .i32 ∧
        s.Holds id o ∧ o.storage.bits ≠ Storage.i32.bits := by
  obtain ⟨p, hp, -⟩ := exists_of_lowersTo
    (show lowersTo (pointerAs (.int .w32)) .win64 (fun _ => true) =
      true by decide +kernel)
  obtain ⟨s, id, hs, hsmall, hid, ho⟩ := pointerAs_visited (.int .w32) ⟨.phys .rcx, .ptr⟩
    (by decide +kernel)
  exact ⟨⟨p, hp⟩, s, id, _, hs, hsmall, hid, rfl, rfl, ho, by decide⟩

end InstSelect.Lowering
