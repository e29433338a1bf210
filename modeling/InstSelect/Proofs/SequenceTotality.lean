import InstSelect.Proofs.TypedInstructions

/-!
# Integer code with a meaning always lowers

A sequence of integer instructions that can be run at all has operands of the right
widths. If those come from own arguments, integer constants, symbols, frame objects that
are bound already, or the sequence itself, then each instruction finds its operands and
lowering it cannot fail.
-/

namespace InstSelect.Lowering

open IR (ValueId InstId Inst World Results)
open Machine (OperandId)

/-- What an instruction of a sequence may use, at a point where allocas were lowered. -/
inductive Source (env : Env) (func : IR.FuncId) (s : State) (ids : List InstId)
    (v : ValueId) : Prop
  | argument (ty : IR.Ty) (index : UInt32)
      (value : env.module.value v = .ok ⟨ty, .argument func index⟩)
  | constant (ty : IR.Ty) (n : Int64)
      (value : env.module.value v = .ok ⟨ty, .constant (.int n)⟩)
  | function (ty : IR.Ty) (g : IR.FuncId) (d : IR.Function) (name : String)
      (value : env.module.value v = .ok ⟨ty, .function g⟩)
      (function : env.module.function g = .ok d)
      (symbol : env.abi.symbolName d.name = .ok name)
  | global (ty : IR.Ty) (g : IR.GlobalId) (d : IR.Global)
      (value : env.module.value v = .ok ⟨ty, .global g⟩)
      (global : env.module.global g = .ok d)
  | object (ty : IR.Ty) (inst : InstId) (i : Inst) (id : OperandId)
      (value : env.module.value v = .ok ⟨ty, .instruction inst⟩)
      (found : env.module.inst inst = .ok i) (alloca : i.opcode = .alloca)
      (bound : s.values.find? v = some id)
  | result (ty : IR.Ty) (inst : InstId)
      (value : env.module.value v = .ok ⟨ty, .instruction inst⟩) (mem : inst ∈ ids)

variable {J : Job} {s t : State} {c : Current} {w : Nat} {W : World} {ρ : Results}
  {i : Inst} {v : ValueId} {id : OperandId} {inst : InstId} {ids : List InstId}

/-- The results so far are bound to operands of their widths. -/
def Defined (J : Job) (t : State) (ρ : Results) : Prop :=
  ∀ v x, ρ v = some x →
    ∃ inst ty id o w, J.env.module.value v = .ok ⟨ty, .instruction inst⟩ ∧
    t.values.find? v = some id ∧ t.Holds id o ∧ ty.width? = some w ∧ o.IsValue w

/-- A frame object that is bound can be used as the pointer that it is. -/
theorem Ready.object {ty : IR.Ty} (hc : Ready J t c) (hroom : t.size < 2 ^ 32)
    (hvalue : J.env.module.value v = .ok ⟨ty, .instruction inst⟩)
    (hi : J.env.module.inst inst = .ok i) (hop : i.opcode = .alloca)
    (hfind : t.values.find? v = some id) (hw : ty.width? = some w) :
    Available J t w v := by
  obtain ⟨sts, hs⟩ := hc.session
  cases hs.bound v id hfind with
  | leaf hleaf =>
    cases hleaf with
    | argument _ _ value' | constant _ _ _ _ value' | function _ _ _ _ value'
    | global _ _ _ value' | block _ _ _ value' => cases hvalue.symm.trans value'
  | result k i' hi' hk hslot =>
    subst hk
    cases hvalue.symm.trans (value_of_inst J.linked hi')
    cases hi.symm.trans hi'
    have hsize := State.size_eq hc.current
    have hsmall : c.machine.operands.size ≤ 2 ^ 32 := by omega
    obtain ⟨pointee, slot, size, align, hty, hget⟩ :=
      hslot hop (c.arena hsmall) (within_arena hc.current hsmall c hc.current)
    have hholds : t.Holds id ⟨.slot slot size align, .ptr⟩ :=
      ⟨c, hc.current, operand_eq_ok.mp (operand_of_arena hget)⟩
    rw [hty] at hw
    exact .result _ _ id _ hvalue hfind hholds ⟨(width_of_ptr hw).symm,
      .inr (.inr ⟨rfl, rfl⟩)⟩

/-- An operand with a meaning can be resolved. -/
theorem Source.available {y : BitVec w} (h : Source J.env J.func s ids v)
    (hobjects : ∀ inst ∈ ids, ∀ i, J.env.module.inst inst = .ok i → i.opcode ≠ .alloca)
    (hkept : ∀ v id, s.values.find? v = some id → t.values.find? v = some id)
    (hc : Ready J t c) (hroom : t.size < 2 ^ 32) (hdef : Defined J t ρ)
    (hread : J.env.module.read? W ρ w v = some y) : Available J t w v := by
  obtain ⟨hw, x, -, hx⟩ := read?_eq_some hread
  cases h with
  | argument ty index value => exact .argument ty index value (width?_eq value ▸ hw)
  | constant ty n value => exact .constant ty _ n value rfl (width?_eq value ▸ hw)
  | function ty g d name value function symbol =>
    obtain ⟨_, -, -, rfl⟩ := J.linked.values _ _ (IR.Module.value_eq_ok.mp value)
    exact .function _ g d name value function symbol (width_of_ptr (width?_eq value ▸ hw))
  | global ty g d value global =>
    obtain ⟨_, -, -, rfl⟩ := J.linked.values _ _ (IR.Module.value_eq_ok.mp value)
    exact .global _ g d value global (width_of_ptr (width?_eq value ▸ hw))
  | object ty inst i id value found alloca bound =>
    exact hc.object hroom value found alloca (hkept v id bound) (width?_eq value ▸ hw)
  | result ty inst value mem =>
    have hρ : ρ v = some x := by
      rcases hx with hleaf | ⟨-, hρ⟩
      · obtain ⟨i, hi, -⟩ := J.linked.values _ _ (IR.Module.value_eq_ok.mp value)
        have hinst := IR.Module.inst_eq_ok.mpr hi
        simp [IR.Module.leaf?, value, hinst, hobjects inst mem i hinst] at hleaf
      · exact hρ
    obtain ⟨inst', ty', id, o, w', hvalue, hfind, ho, hw', hval⟩ := hdef v x hρ
    cases (width?_eq hvalue ▸ hw : ty'.width? = some w).symm.trans hw'
    exact .result inst' ty' id o hvalue hfind ho hval

theorem valueTy_of_width? (hw : J.env.module.width? v = some w) :
    ∃ ty, J.env.module.valueTy v = .ok ty ∧ ty.width? = some w := by
  unfold IR.Module.width? at hw
  split at hw
  · next data hv => exact ⟨data.ty, by rw [IR.Module.valueTy, hv]; rfl, hw⟩
  · cases hw

/-- The code of an instruction with a result can be selected. -/
theorem selectInst_evaluated_total {x : BitVec w} (hw : i.ty.width? = some w)
    (hx : J.env.module.Evaluated W ρ i w x) (hobject : i.opcode ≠ .alloca)
    (hav : ∀ (u : Nat) (v : ValueId) (y : BitVec u), v ∈ i.operands →
      J.env.module.read? W ρ u v = some y → Available J s u v) :
    Total J 12 s (selectInst inst i) fun r t => ∃ id, r = some id ∧ HasReg w id t := by
  have hsome : ∀ {n : Nat} {x : LowerM OperandId}, n ≤ 12 → Total J n s x (HasReg w) →
      Total J 12 s (some <$> x) fun r t => ∃ id, r = some id ∧ HasReg w id t :=
    fun hle htotal => .map (htotal.mono hle fun id _ _ h => ⟨id, rfl, h⟩)
  cases hx with
  | arithmetic op operands left right =>
    obtain ⟨mop, hmop, -, hselect⟩ := selectInst_arithmetic inst op
    rw [hselect]
    exact hsome (by omega) (lowerBinary_total hmop hw operands
      (hav _ _ _ (by simp [operands]) left) (hav _ _ _ (by simp [operands]) right))
  | shift op operands left right small =>
    obtain ⟨isRight, -, hselect⟩ := selectInst_shift inst op
    rw [hselect]
    exact hsome (by omega)
      (lowerShift_total hw operands (hav _ _ _ (by simp [operands]) left)
        (hav _ _ _ (by simp [operands]) right))
  | compare op ty operands left right =>
    obtain ⟨hwidth, -⟩ := read?_eq_some left
    obtain ⟨lty, hlty, hlw⟩ := valueTy_of_width? hwidth
    simp only [selectInst, op]
    rw [ty] at hw
    cases hw
    exact hsome (by omega) (lowerCompare_total operands hlty hlw
      (hav _ _ _ (by simp [operands]) left) (hav _ _ _ (by simp [operands]) right))
  | trunc op operands source narrows =>
    simp only [selectInst, op]
    exact hsome (by omega)
      (lowerTrunc_total hw operands (hav _ _ _ (by simp [operands]) source) narrows)
  | zext op operands source widens =>
    simp only [selectInst, op]
    exact hsome (by omega)
      (lowerExtend_total (.inl rfl) hw operands (hav _ _ _ (by simp [operands]) source)
        widens)
  | sext op operands source widens =>
    simp only [selectInst, op]
    exact hsome (by omega)
      (lowerExtend_total (.inr rfl) hw operands (hav _ _ _ (by simp [operands]) source)
        widens)
  | cast op operands source =>
    have hselect : selectInst inst i = some <$> lowerReinterpret i := by
      rcases op with op | op | op <;> simp only [selectInst, op]
    rw [hselect]
    exact hsome (by omega)
      (lowerReinterpret_total hw operands (hav _ _ _ (by simp [operands]) source))
  | alloca op => exact absurd op hobject

/-! ## Sequences -/

/-- Binding one more result. -/
theorem Defined.bind {y : BitVec 64} (h : Defined J s ρ) (hf : Follows J.env s t)
    (hi : J.env.module.inst inst = .ok i) (hunbound : t.values.find? i.value = none)
    (hw : i.ty.width? = some w) (hreg : HasReg w id t) :
    Defined J (t.bound i.value (some id)) (ρ.set i.value y) := by
  intro v x hx
  by_cases hv : v = i.value
  · subst hv
    obtain ⟨o, ho, hval⟩ := hreg
    exact ⟨inst, i.ty, id, o, w, value_of_inst J.linked hi,
      Bindings.find?_insert_self _ _ _, ho, hw, hval.direct.value⟩
  · rw [Results.set, if_neg hv] at hx
    obtain ⟨inst', ty, id', o, w', hvalue, hfind, ho, hw', hval⟩ := h v x hx
    have ho' : t.Holds id' o := ho.later hf
    exact ⟨inst', ty, id', o, w', hvalue,
      find?_insert_of_unbound hunbound (hf.values hfind), ho', hw', hval⟩

/-- A sequence with a meaning lowers. -/
theorem lowerInsts_evaluated_total {rest : List InstId} {ρ' : Results}
    (hc : Ready J t c)
    (hobjects : ∀ inst ∈ ids, ∀ i, J.env.module.inst inst = .ok i → i.opcode ≠ .alloca)
    (hsub : rest ⊆ ids) (hsources : ∀ inst ∈ rest, ∀ i, J.env.module.inst inst = .ok i →
      ∀ v ∈ i.operands, Source J.env J.func s ids v)
    (hkept : ∀ v id, s.values.find? v = some id → t.values.find? v = some id)
    (hdef : Defined J t ρ) (hnodup : rest.Nodup)
    (hfresh : ∀ inst ∈ rest, ∀ i, J.env.module.inst inst = .ok i →
      t.values.find? i.value = none) (heval : J.env.module.run? W rest ρ = some ρ')
    (hroom : t.size + 12 * rest.length < 2 ^ 32) :
    ∃ t' c', Runs (rest.forM lowerInst) J.env t () t' ∧ Ready J t' c' ∧
      t'.size ≤ t.size + 12 * rest.length := by
  induction rest generalizing t c ρ with
  | nil => exact ⟨t, c, runs_pure.mpr ⟨rfl, rfl⟩, hc, Nat.le_refl _⟩
  | cons inst rest ih =>
    obtain ⟨hinst, hrest⟩ := List.cons_subset.mp hsub
    obtain ⟨hfirst, hothers⟩ := List.forall_mem_cons.mp hsources
    obtain ⟨hunbound, hfresh⟩ := List.forall_mem_cons.mp hfresh
    obtain ⟨hnew, hnodup⟩ := List.nodup_cons.mp hnodup
    obtain ⟨i, w, x, hi, hw, hx, heval⟩ := IR.Module.of_run?_cons heval
    rw [List.length_cons] at hroom ⊢
    have hselect : Total J 12 t (selectInst inst i) fun r t => ∃ id, r = some id ∧
        HasReg w id t :=
      selectInst_evaluated_total hw (.of_eval? hx) (hobjects inst hinst i hi)
        fun u v y hv hread =>
        (hfirst i hi v hv).available hobjects hkept hc (by omega) hdef hread
    obtain ⟨_, u, d, hrun, hd, hfollows, hsize, hunbound', id, rfl, hreg⟩ :=
      lowerInst_runs_of_select hc hi (hunbound i hi) hselect (by omega)
    have hsize' : (u.bound i.value (some id)).size = u.size := rfl
    have hfresh' : ∀ inst' ∈ rest, ∀ i', J.env.module.inst inst' = .ok i' →
        (u.bound i.value (some id)).values.find? i'.value = none := by
      intro inst' hinst' i' hi'
      show (u.values.insert i.value id).find? i'.value = none
      rw [Bindings.find?_insert, if_neg]
      · rw [hfollows.find?_inst (value_of_inst J.linked hi')]
        exact hfresh inst' hinst' i' hi'
      · intro heq
        exact hnew (inst_of_value_eq hi hi' heq.symm ▸ hinst')
    obtain ⟨t', c', hrun', hc', hle⟩ := ih hd hrest hothers
      (fun v id' hv =>
        find?_insert_of_unbound hunbound' (hfollows.values (hkept v id' hv)))
      (hdef.bind hfollows hi hunbound' hw hreg) hnodup hfresh' heval (by omega)
    exact ⟨t', c', runs_bind.mpr ⟨(), _, hrun, hrun'⟩, hc', by omega⟩

/-! ## Points of a lowering -/

/--
Registers and slots are counted at every point of the lowering of a defined function.
-/
theorem Reached.counted {env : Env} {func : IR.FuncId} {f : IR.Function}
    (habi : env.abi = .win64) (hfunc : env.module.function func = .ok f)
    (hdef : f.isExternal = false) (h : Reached env func s)
    (hc : s.current = some c) : c.machine.Counted := by
  induction h generalizing c with
  | opened run =>
    obtain ⟨f', machine, hf', hopen, rfl⟩ := runs_beginFunction run
    cases hfunc.symm.trans hf'
    cases hc
    obtain ⟨_, ho⟩ := openFunction_opened hdef (habi ▸ hopen)
    exact ⟨by rw [ho.nextVReg]; exact Nat.zero_le _,
      by rw [ho.nextSlot]; exact Nat.zero_le _⟩
  | @entered s t s' b id u before block run ih =>
    obtain ⟨sts, d, hs⟩ := before.session habi hfunc hdef
    obtain ⟨hpath, -⟩ := blockFor_path block
    obtain ⟨e, he, -⟩ := hpath.grown hs.current
    obtain rfl := runs_setInsertionBlock.mp run
    have hcounted := hpath.counted hs.current he (ih hs.current)
    simp only [he, Option.map_some, Option.some.injEq] at hc
    subst hc
    exact hcounted
  | lowered before run ih =>
    obtain ⟨sts, d, hs⟩ := before.session habi hfunc hdef
    obtain ⟨i, t, code, -, hpath, hbinds⟩ := lowerInst_path habi run
    exact hpath.counted hs.current (hbinds.current ▸ hc) (ih hs.current)
  | resolved before run ih =>
    obtain ⟨sts, d, hs⟩ := before.session habi hfunc hdef
    obtain ⟨hpath, -⟩ := resolve_path run
    exact hpath.counted hs.current hc (ih hs.current)
  | laidOut before run ih =>
    obtain ⟨d, machine, hd, happend, rfl⟩ := runs_change.mp run
    obtain ⟨-, -, -, -, rfl⟩ := Machine.Function.appendBlock_eq_ok.mp happend
    cases hc
    exact ⟨(ih hd).vregs, (ih hd).slots⟩

end InstSelect.Lowering
