import InstSelect.Proofs.InstructionTotality

/-!
# Well-typed instructions always lower

While the blocks of a well-typed function are lowered, every instruction that was met has
its result bound to an operand of the width of its type, and no other instruction has. So
each next instruction finds its operands, and binds its result for the first time.
-/

namespace InstSelect.Lowering

open IR (ValueId InstId Inst)
open Machine (Storage Operand OperandId)

variable {J : Job} {s s' t : State} {c c' : Current} {n m w : Nat} {id : OperandId}
  {o : Operand} {v : ValueId} {i : Inst} {ty : IR.Ty} {inst : InstId}
  {done : List InstId} {env : Env} {r : Option OperandId}

/-! ## Scalar types -/

/-- A scalar type has a class that holds its values in every role. -/
theorem storage_of_isScalar (h : ty.isScalar = true) :
    ∃ st : Storage, ty.width? = some st.width ∧ st ≠ .void ∧ storageOf ty = .ok st ∧
      ∀ role, byValueStorage ty role = .ok st := by
  cases ty with
  | bool => exact ⟨.i8, rfl, by decide, rfl, fun _ => rfl⟩
  | ptr => exact ⟨.ptr, rfl, by decide, rfl, fun _ => rfl⟩
  | int width | uint width => cases width <;> exact ⟨_, rfl, by decide, rfl, fun _ => rfl⟩
  | _ => cases h

theorem isScalar_of_isInteger (h : ty.isInteger = true) : ty.isScalar = true := by
  rw [IR.Ty.isScalar, h]
  rfl

/-! ## The results so far -/

/-- Values of instructions are bound by lowering them and not otherwise. -/
theorem Follows.find?_inst (h : Follows env s t)
    (hv : env.module.value v = .ok ⟨ty, .instruction inst⟩) :
    t.values.find? v = s.values.find? v := by
  induction h with
  | refl => rfl
  | edit => rfl
  | trans _ _ ih ih' => rw [ih', ih]
  | grow hg =>
    cases hg with
    | @value c u id current unbound leaf =>
      rw [Bindings.find?_insert, if_neg]
      rintro rfl
      cases leaf with
      | argument _ _ value | constant _ _ _ _ value | function _ _ _ _ value
      | global _ _ _ value | block _ _ _ value => cases hv.symm.trans value
    | operand | inst | block | reserve => rfl

/--
The value of an instruction that produced one is bound to an operand of the width of its
type.
-/
structure ResultBound (s : State) (i : Inst) : Prop where
  out : ∃ id o w, s.values.find? i.value = some id ∧ s.Holds id o ∧ i.ty.width? = some w ∧
    o.IsValue w

/-- A phi is bound to a virtual register. -/
structure PhiBound (J : Job) (s : State) (inst : InstId) : Prop where
  out : ∃ i id r st, J.env.module.inst inst = .ok i ∧ i.opcode = .phi ∧
    s.values.find? i.value = some id ∧ s.Holds id ⟨.virt r, st⟩

/-- The instructions in `done`, and no others, were lowered. -/
structure Lowered (J : Job) (s : State) (done : List InstId) : Prop where
  bound : ∀ inst ∈ done, ∀ i, J.env.module.inst inst = .ok i → i.ty.isScalar = true →
    ResultBound s i
  unbound : ∀ inst i, J.env.module.inst inst = .ok i → inst ∉ done →
    s.values.find? i.value = none
  pending : s.pendingPhis.Sublist done
  phis : ∀ inst ∈ s.pendingPhis, PhiBound J s inst

theorem ResultBound.later (h : ResultBound s i) (hf : Follows J.env s t) :
    ResultBound t i := by
  obtain ⟨id, o, w, hfind, ho, hw, hval⟩ := h.out
  exact ⟨id, o, w, hf.values hfind, ho.later hf, hw, hval⟩

theorem PhiBound.later (h : PhiBound J s inst) (hf : Follows J.env s t) :
    PhiBound J t inst := by
  obtain ⟨i, id, r, st, hi, hop, hfind, ho⟩ := h.out
  exact ⟨i, id, r, st, hi, hop, hf.values hfind, ho.later hf⟩

theorem Lowered.later (h : Lowered J s done) (hf : Follows J.env s t) :
    Lowered J t done where
  bound inst hinst i hi hscalar := (h.bound inst hinst i hi hscalar).later hf
  unbound inst i hi hinst := by
    rw [hf.find?_inst (value_of_inst J.linked hi)]
    exact h.unbound inst i hi hinst
  pending := hf.pending ▸ h.pending
  phis inst hinst := (h.phis inst (hf.pending ▸ hinst)).later hf

/-- What was lowered stays so where bindings and operands do. -/
theorem Lowered.of_holds (h : Lowered J s done) (hvalues : s'.values = s.values)
    (hpending : s'.pendingPhis.Sublist s.pendingPhis)
      (hholds : ∀ id o, s.Holds id o → s'.Holds id o) :
    Lowered J s' done where
  bound inst hinst i hi hscalar := by
    obtain ⟨id, o, w, hfind, ho, hw, hval⟩ := (h.bound inst hinst i hi hscalar).out
    exact ⟨id, o, w, hvalues ▸ hfind, hholds id o ho, hw, hval⟩
  unbound inst i hi hinst := hvalues ▸ h.unbound inst i hi hinst
  pending := hpending.trans h.pending
  phis inst hinst := by
    obtain ⟨i, id, r, st, hi, hop, hfind, ho⟩ := (h.phis inst (hpending.subset hinst)).out
    exact ⟨i, id, r, st, hi, hop, hvalues ▸ hfind, hholds id _ ho⟩

/-- An id holds what it held if the operands are the same. -/
theorem State.Holds.congr (h : s.Holds id o) (hc : s.current = some c)
    (hc' : s'.current = some c') (heq : c'.machine.operands = c.machine.operands) :
    s'.Holds id o := by
  obtain ⟨d, hd, ho⟩ := h
  cases hc.symm.trans hd
  exact ⟨c', hc', heq ▸ ho⟩

theorem symbolName_of_plain {name : String} (h : Abi.win64.isIntrinsic name = false) :
    Abi.win64.symbolName name = .ok name := by
  unfold Abi.isIntrinsic at h
  unfold Abi.symbolName
  cases hstem : Abi.win64.stem? name with
  | none => rfl
  | some stem =>
    rw [hstem] at h
    cases h

/-- What a well-typed instruction may use is available. -/
theorem Lowered.available (h : Lowered J s done)
    (hu : J.env.module.Usable J.func (· ∈ done) ty v)
    (hscalar : ty.isScalar = true) : ∃ st : Storage, ty.width? = some st.width ∧
      Available J s st.width v := by
  obtain ⟨st, hw, -⟩ := storage_of_isScalar hscalar
  refine ⟨st, hw, ?_⟩
  cases hu with
  | argument index value => exact .argument ty index value hw
  | constant k value scalar =>
    cases k with
    | int n => exact .constant ty _ n value rfl hw
    | null | zero | undef => exact .constant ty _ 0 value rfl hw
    | float | bytes | aggregate => cases scalar
  | function g d value function plain =>
    obtain ⟨_, -, -, rfl⟩ := J.linked.values _ _ (IR.Module.value_eq_ok.mp value)
    refine .function _ g d d.name value function ?_ (width_of_ptr hw)
    rw [J.abi]
    exact symbolName_of_plain plain
  | global g d value global =>
    obtain ⟨_, -, -, rfl⟩ := J.linked.values _ _ (IR.Module.value_eq_ok.mp value)
    exact .global _ g d value global (width_of_ptr hw)
  | result inst value before =>
    obtain ⟨i, hi, hvalue, rfl⟩ := J.linked.values _ _ (IR.Module.value_eq_ok.mp value)
    rw [UInt32.ofNat_toNat] at hvalue
    obtain ⟨id, o, w, hfind, ho, hw', hval⟩ :=
      (h.bound inst before i (IR.Module.inst_eq_ok.mpr hi) hscalar).out
    rw [hvalue] at hfind
    cases hw.symm.trans hw'
    exact .result inst _ id o value hfind ho hval

/-! ## One instruction -/

/--
What selection answers for an instruction with a scalar result: an operand of its width.
-/
def Selected (i : Inst) (r : Option OperandId) (t : State) : Prop :=
  i.ty.isScalar = true → ∃ id o w, r = some id ∧ t.Holds id o ∧ i.ty.width? = some w ∧
    o.IsValue w

theorem selected_of_hasReg (hw : i.ty.width? = some w) (h : HasReg w id t) :
    Selected i (some id) t := by
  obtain ⟨o, ho, hreg⟩ := h
  exact fun _ => ⟨id, o, w, rfl, ho, hw, hreg.direct.value⟩

theorem selected_of_void (h : i.ty = .void) : Selected i r t := by
  intro hscalar
  rw [h] at hscalar
  cases hscalar

/-- The result of a routine that answers with a register. -/
theorem Total.selected {x : LowerM OperandId} (hx : Total J n s x (HasReg w))
    (hw : i.ty.width? = some w) (hle : n ≤ m) : Total J m s (some <$> x) (Selected i) :=
  (Total.map (hx.mono (Nat.le_refl _) fun _ _ _ h => selected_of_hasReg hw h)).weaken hle

/-- The end of a routine without a result. -/
theorem Total.nothing {x : LowerM Unit} (hx : Total J n s x fun _ _ => True)
    (hty : i.ty = .void)
    (hle : n ≤ m) : Total J m s ((fun _ => none) <$> x) (Selected i) :=
  (Total.map (hx.mono (Nat.le_refl _) fun _ _ _ _ => selected_of_void hty)).weaken hle

/-- The machine operation of an arithmetic instruction, or a division. -/
theorem selectInst_arithmetic_cases (inst : InstId) (hop : i.opcode.isArithmetic = true) :
    (∃ op, Machine.binaryOp? i.opcode = some op ∧
      selectInst inst i = some <$> lowerBinary op i) ∨
      ∃ remainder, selectInst inst i = some <$> lowerDivision remainder i := by
  unfold selectInst
  cases hopcode : i.opcode with
  | add | sub | mul | and | or | xor => exact .inl ⟨_, rfl, rfl⟩
  | div => exact .inr ⟨false, rfl⟩
  | rem => exact .inr ⟨true, rfl⟩
  | _ =>
    rw [hopcode] at hop
    cases hop

theorem argumentStorages_of_scalar {args : List ValueId} {func : IR.FuncId}
    {done : InstId → Prop}
    (h : ∀ a ∈ args, ∃ ty, ty.isScalar = true ∧ J.env.module.Usable func done ty a) :
    ∃ sts, argumentStorages J.env.module args = .ok sts := by
  induction args with
  | nil => exact ⟨[], rfl⟩
  | cons a args ih =>
    obtain ⟨ty, hscalar, hu⟩ := h a List.mem_cons_self
    obtain ⟨st, -, -, -, hst⟩ := storage_of_isScalar hscalar
    obtain ⟨sts, hsts⟩ := ih fun b hb => h b (List.mem_cons_of_mem _ hb)
    refine ⟨st :: sts, ?_⟩
    unfold argumentStorages at hsts ⊢
    rw [List.mapM_cons]
    exact bind_eq_ok.mpr ⟨st, bind_eq_ok.mpr ⟨ty, hu.valueTy, hst _⟩,
      bind_eq_ok.mpr ⟨sts, hsts, rfl⟩⟩

section

variable {inst : InstId} {done : List InstId} (hl : Lowered J s done)

include hl

theorem selectInst_computes_total (ht : J.env.module.Computes J.func (· ∈ done) i) :
    Total J (12 * (1 + i.operands.length)) s (selectInst inst i) (Selected i) := by
  cases ht with
  | arithmetic op integer operands left right =>
    obtain ⟨st, hw, hav⟩ := hl.available left (isScalar_of_isInteger integer)
    obtain ⟨st', hw', hav'⟩ := hl.available right (isScalar_of_isInteger integer)
    rw [Option.some.inj (hw'.symm.trans hw)] at hav'
    rcases selectInst_arithmetic_cases inst op with ⟨mop, hmop, heq⟩ | ⟨remainder, heq⟩
    · rw [heq, operands]
      exact (lowerBinary_total hmop hw operands hav hav').selected hw (by simp)
    · rw [heq, operands]
      exact (lowerDivision_total integer hw operands hav hav').selected hw (by simp)
  | shift op integer operands left counts right =>
    obtain ⟨st, hw, hav⟩ := hl.available left (isScalar_of_isInteger integer)
    obtain ⟨st', -, hav'⟩ := hl.available right (isScalar_of_isInteger counts)
    have heq : ∃ dir, selectInst inst i = some <$> lowerShift dir i := by
      rcases op with op | op <;> exact ⟨_, by simp only [selectInst, op]; rfl⟩
    obtain ⟨dir, heq⟩ := heq
    rw [heq, operands]
    exact (lowerShift_total hw operands hav hav').selected hw (by simp)
  | @compare p l r ty op result operands scalar left right =>
    obtain ⟨st, hw, hav⟩ := hl.available left scalar
    obtain ⟨st', hw', hav'⟩ := hl.available right scalar
    rw [Option.some.inj (hw'.symm.trans hw)] at hav'
    have heq : selectInst inst i = some <$> lowerCompare p i :=
      by simp only [selectInst, op]
    rw [heq, operands]
    exact (lowerCompare_total operands left.valueTy hw hav hav').selected
      (by rw [result]; rfl) (by simp)
  | trunc op integer operands source value from_width to_width narrows =>
    obtain ⟨st, hw, hav⟩ := hl.available value (isScalar_of_isInteger source)
    rw [Option.some.inj (hw.symm.trans from_width)] at hav
    have heq : selectInst inst i = some <$> lowerTrunc i := by simp only [selectInst, op]
    rw [heq, operands]
    exact (lowerTrunc_total to_width operands hav narrows).selected to_width (by simp)
  | extend op integer operands source value from_width to_width widens =>
    obtain ⟨st, hw, hav⟩ := hl.available value (isScalar_of_isInteger source)
    rw [Option.some.inj (hw.symm.trans from_width)] at hav
    have heq : ∃ mop, (mop = .movzx ∨ mop = .movsx) ∧
        selectInst inst i = some <$> lowerExtend mop i := by
      rcases op with op | op
      · exact ⟨.movzx, .inl rfl, by simp only [selectInst, op]⟩
      · exact ⟨.movsx, .inr rfl, by simp only [selectInst, op]⟩
    obtain ⟨mop, hmop, heq⟩ := heq
    rw [heq, operands]
    exact (lowerExtend_total hmop to_width operands hav widens).selected to_width
      (by simp)
  | cast op scalar operands source value width =>
    obtain ⟨st, hw, hav⟩ := hl.available value source
    rw [width] at hw
    have heq : selectInst inst i = some <$> lowerReinterpret i := by
      unfold selectInst
      cases hopcode : i.opcode with
      | ptrToInt | intToPtr | bitcast => rfl
      | _ =>
        rw [hopcode] at op
        cases op
    rw [heq, operands]
    exact (lowerReinterpret_total hw operands hav).selected hw (by simp)

theorem selectInst_accesses_total (ht : J.env.module.Accesses J.func (· ∈ done) i) :
    Total J (12 * (1 + i.operands.length)) s (selectInst inst i) (Selected i) := by
  cases ht with
  | alloca op result extent count =>
    have heq : selectInst inst i = some <$> lowerAlloca i := by simp only [selectInst, op]
    rw [heq]
    refine Total.weaken (n := 1)
      (.map ((lowerAlloca_total result extent count).mono (Nat.le_refl _)
        fun id t _ hpost _ => ?_)) (by omega)
    obtain ⟨o, ho, hval⟩ := hpost
    exact ⟨id, o, 64, rfl, ho, by rw [result]; rfl, hval⟩
  | load op scalar operands pointer =>
    obtain ⟨st, hav⟩ := hl.available pointer rfl
    obtain ⟨st', hw, -, -, hst⟩ := storage_of_isScalar scalar
    have heq : selectInst inst i = some <$> lowerLoad i := by simp only [selectInst, op]
    rw [heq, operands]
    exact (lowerLoad_total (hst _) operands hav.2).selected hw (by simp)
  | store op result operands scalar value pointer =>
    obtain ⟨st, -, hav⟩ := hl.available value scalar
    obtain ⟨st', -, hav'⟩ := hl.available pointer rfl
    obtain ⟨st'', -, -, -, hst⟩ := storage_of_isScalar scalar
    have heq : selectInst inst i = (fun _ => none) <$> lowerStore i :=
      by simp only [selectInst, op]
    rw [heq, operands]
    exact (lowerStore_total operands value.valueTy (hst _) hav hav').nothing result
      (by simp)
  | @gep base indices pointee reached op result operands pointer steps =>
    obtain ⟨st, hw, hav⟩ := hl.available pointer rfl
    rw [width_of_ptr hw] at hav
    have heq : selectInst inst i = some <$> lowerGep i := by simp only [selectInst, op]
    have hsteps : J.env.module.Steps (IsIndex J s) (.ptr pointee) indices := by
      refine steps.imp fun v hv => ?_
      obtain ⟨ty, integer, hu⟩ := hv
      obtain ⟨st, hw, hav⟩ := hl.available hu (isScalar_of_isInteger integer)
      exact ⟨_, st.width_le, hav⟩
    rw [heq, operands]
    refine (lowerGep_total operands hav pointer.valueTy hsteps).selected
      (by rw [result]; rfl) ?_
    rw [List.length_cons]
    omega

theorem selectInst_transfers_total
    (ht : J.env.module.Transfers J.func (· ∈ done) i J.f.sig.ret) :
    Total J (12 * (1 + i.operands.length)) s (selectInst inst i) (Selected i) := by
  cases ht with
  | call op result operands few target arguments =>
    obtain ⟨st, -, hav⟩ := hl.available target rfl
    obtain ⟨sts, hsts⟩ := argumentStorages_of_scalar arguments
    have hargs : ∀ a ∈ _, ∃ w, Available J s w a := fun a ha => by
      obtain ⟨ty, hscalar, hu⟩ := arguments a ha
      obtain ⟨st, -, hav⟩ := hl.available hu hscalar
      exact ⟨_, hav⟩
    have heq : selectInst inst i = lowerCall i := by simp only [selectInst, op]
    rw [heq, operands, List.length_cons]
    rcases result with hvoid | hscalar
    · have hst : byValueStorage i.ty "call result" = .ok .void := by rw [hvoid]; rfl
      exact (lowerCall_total operands few hsts hst hav hargs).mono (by omega)
        fun _ _ _ _ => selected_of_void hvoid
    · obtain ⟨st', hw, hne, -, hst⟩ := storage_of_isScalar hscalar
      refine (lowerCall_total operands few hsts (hst _) hav hargs).mono (by omega) ?_
      rintro r t - (⟨hvoid, -⟩ | ⟨id, rfl, hreg⟩)
      · exact absurd hvoid hne
      · exact selected_of_hasReg hw hreg
  | br op result operands own =>
    have heq : selectInst inst i = (fun _ => none) <$> lowerBr i :=
      by simp only [selectInst, op]
    rw [heq, operands]
    exact (lowerBr_total operands own).nothing result (by simp)
  | condBr op result operands integer condition own own' =>
    obtain ⟨st, -, hav⟩ := hl.available condition (isScalar_of_isInteger integer)
    have heq : selectInst inst i = (fun _ => none) <$> lowerCondBr i := by
      simp only [selectInst, op]
    rw [heq, operands]
    exact (lowerCondBr_total operands hav own own').nothing result (by simp)
  | ret op result returned =>
    have heq : selectInst inst i = (fun _ => none) <$> lowerRet i :=
      by simp only [selectInst, op]
    have hreturns : Returns J s i.operands := by
      generalize i.operands = operands at returned ⊢
      cases returned with
      | nothing => exact .nothing
      | value scalar value =>
        obtain ⟨st, -, hav⟩ := hl.available value scalar
        obtain ⟨st', -, hne, hst, -⟩ := storage_of_isScalar scalar
        exact .value hav fun hvoid => hne (Except.ok.inj (hst.symm.trans hvoid))
    rw [heq]
    exact (lowerRet_total hreturns).nothing result (by omega)

end

/-- Instructions with the same value are the same. -/
theorem inst_of_value_eq {inst' : InstId} {i' : Inst}
    (hi : J.env.module.inst inst = .ok i) (hi' : J.env.module.inst inst' = .ok i')
    (h : i'.value = i.value) : inst' = inst := by
  have hvalue := value_of_inst J.linked hi
  have hvalue' := value_of_inst J.linked hi'
  rw [h, hvalue] at hvalue'
  have hkind := congrArg IR.Value.kind (Except.ok.inj hvalue')
  injection hkind with hinst
  exact hinst.symm

/-- The state after a value was bound to a result, if there is one. -/
def State.bound (t : State) (v : ValueId) : Option OperandId → State
  | some id => { t with values := t.values.insert v id }
  | none => t

theorem State.bound_current (t : State) (v : ValueId) (r : Option OperandId) :
    (t.bound v r).current = t.current := by
  cases r <;> rfl

theorem State.bound_blocks (t : State) (v : ValueId) (r : Option OperandId) :
    (t.bound v r).blocks = t.blocks := by
  cases r <;> rfl

theorem State.bound_size (t : State) (v : ValueId) (r : Option OperandId) :
    (t.bound v r).size = t.size := by
  cases r <;> rfl

theorem runs_lowerInst_of (hi : env.module.inst inst = .ok i)
    (hrun : Runs (selectInst inst i) env s r t)
    (hunbound : t.values.find? i.value = none ∨ r = none) :
    Runs (lowerInst inst) env s () (t.bound i.value r) := by
  refine runs_bind.mpr ⟨_, s, runs_sourceModule.mpr ⟨rfl, rfl⟩, runs_bind.mpr ⟨i, s,
    runs_check.mpr ⟨hi, rfl⟩, runs_bind.mpr ⟨r, t, hrun, ?_⟩⟩⟩
  cases r with
  | some id => exact runs_bindValue.mpr ⟨hunbound.resolve_right (by simp), rfl⟩
  | none => exact runs_pure.mpr ⟨rfl, rfl⟩

theorem Ready.bind (ht : Ready J t c) (hcurrent : s'.current = t.current)
    (hs' : ∃ sts, Session J.env J.func J.f sts s' c') : Ready J s' c' := by
  obtain ⟨sts, hs'⟩ := hs'
  cases (hcurrent.symm.trans hs'.current).symm.trans ht.current
  exact ⟨⟨sts, hs'⟩, ht.receives, ht.counted⟩

/-- After a binding the function is as ready as before. -/
theorem Ready.lowerInst {d : Current} (hc : Ready J s c) (hd : Ready J t d)
    (hrun : Runs (lowerInst inst) J.env s () s') (hcurrent : s'.current = t.current) :
    ∃ c', Ready J s' c' := by
  obtain ⟨sts, hs⟩ := hc.session
  obtain ⟨c', hs'⟩ := hs.lowerInst J.abi hrun
  exact ⟨c', hd.bind hcurrent ⟨sts, hs'⟩⟩

/--
An instruction whose code can be selected lowers: the state grows, and its value is bound.
-/
theorem lowerInst_runs_of_select {Q : Option OperandId → State → Prop} (hc : Ready J s c)
    (hi : J.env.module.inst inst = .ok i) (hunbound : s.values.find? i.value = none)
    (hselect : Total J n s (selectInst inst i) Q) (hroom : s.size + n < 2 ^ 32) :
    ∃ r t c', Runs (lowerInst inst) J.env s () (t.bound i.value r) ∧
      Ready J (t.bound i.value r) c' ∧
      Follows J.env s t ∧ t.size ≤ s.size + n ∧ t.values.find? i.value = none ∧
        Q r t := by
  obtain ⟨r, t, hrun, hfollows, hsize, hq⟩ := hselect c hc hroom
  obtain ⟨d, hd⟩ := hc.later hfollows
  have hunbound' : t.values.find? i.value = none :=
    (hfollows.find?_inst (value_of_inst J.linked hi)).trans hunbound
  have hlower := runs_lowerInst_of hi hrun (.inl hunbound')
  obtain ⟨c', hc'⟩ := hc.lowerInst hd hlower (t.bound_current i.value r)
  exact ⟨r, t, c', hlower, hc', hfollows, hsize, hunbound', hq⟩

section

variable {inst : InstId} {done : List InstId}

/-- Binding the result of one more instruction. -/
theorem Lowered.bind (hl : Lowered J t done) (hi : J.env.module.inst inst = .ok i)
    (hunbound : t.values.find? i.value = none) (hcurrent : s'.current = t.current)
    (hvalues : s'.values = t.values.insert i.value id)
    (hresult : i.ty.isScalar = true →
      ∃ o w, t.Holds id o ∧ i.ty.width? = some w ∧ o.IsValue w)
    (hpending : s'.pendingPhis = t.pendingPhis ∨
      s'.pendingPhis = t.pendingPhis ++ [inst] ∧
      i.opcode = .phi ∧ ∃ r st, t.Holds id ⟨.virt r, st⟩) :
    Lowered J s' (done ++ [inst]) := by
  have hholds : ∀ {id o}, t.Holds id o → s'.Holds id o := by
    rintro id o ⟨c, hc, ho⟩
    exact ⟨c, hcurrent.trans hc, ho⟩
  have hself : s'.values.find? i.value = some id := by
    rw [hvalues]
    exact Bindings.find?_insert_self _ _ _
  have hkept : ∀ {u id'}, t.values.find? u = some id' → s'.values.find? u = some id' := by
    intro u id' hu
    rw [hvalues, Bindings.find?_insert, if_neg]
    · exact hu
    · rintro rfl
      rw [hunbound] at hu
      cases hu
  have hphi : ∀ inst', PhiBound J t inst' → PhiBound J s' inst' := by
    rintro inst' ⟨i', id', r, st, hi', hop, hfind, ho⟩
    exact ⟨i', id', r, st, hi', hop, hkept hfind, hholds ho⟩
  refine ⟨fun inst' hinst' i' hi' hscalar => ?_, fun inst' i' hi' hinst' => ?_, ?_, ?_⟩
  · rcases List.mem_append.mp hinst' with hold | hnew
    · obtain ⟨id', o, w, hfind, ho, hw, hval⟩ := (hl.bound inst' hold i' hi' hscalar).out
      exact ⟨id', o, w, hkept hfind, hholds ho, hw, hval⟩
    · cases List.mem_singleton.mp hnew
      cases hi.symm.trans hi'
      obtain ⟨o, w, ho, hw, hval⟩ := hresult hscalar
      exact ⟨id, o, w, hself, hholds ho, hw, hval⟩
  · rw [hvalues, Bindings.find?_insert, if_neg]
    · exact hl.unbound inst' i' hi' fun h => hinst' (List.mem_append_left _ h)
    · intro h
      exact hinst'
        (List.mem_append_right _
          (List.mem_singleton.mpr (inst_of_value_eq hi hi' h.symm)))
  · rcases hpending with hsame | ⟨hmore, -⟩
    · rw [hsame]
      exact hl.pending.trans (List.sublist_append_left _ _)
    · rw [hmore]
      exact hl.pending.append (List.Sublist.refl _)
  · intro inst' hinst'
    rcases hpending with hsame | ⟨hmore, hop, r, st, ho⟩
    · exact hphi inst' (hl.phis inst' (hsame ▸ hinst'))
    · rw [hmore] at hinst'
      rcases List.mem_append.mp hinst' with hold | hnew
      · exact hphi inst' (hl.phis inst' hold)
      · cases List.mem_singleton.mp hnew
        exact ⟨i, id, r, st, hi, hop, hself, hholds ho⟩

/-- An instruction without a result leaves nothing to bind. -/
theorem Lowered.nothing (hl : Lowered J t done) (hi : J.env.module.inst inst = .ok i)
    (hty : i.ty.isScalar = false) : Lowered J t (done ++ [inst]) := by
  refine ⟨fun inst' hinst' i' hi' hscalar => ?_,
    fun inst' i' hi' hinst' => ?_, ?_, hl.phis⟩
  · rcases List.mem_append.mp hinst' with hold | hnew
    · exact hl.bound inst' hold i' hi' hscalar
    · cases List.mem_singleton.mp hnew
      cases hi.symm.trans hi'
      rw [hty] at hscalar
      cases hscalar
  · exact hl.unbound inst' i' hi' fun h => hinst' (List.mem_append_left _ h)
  · exact hl.pending.trans (List.sublist_append_left _ _)

/-- A state after lowering one instruction: growth, then a binding. -/
structure Advances (J : Job) (s s' : State) (n : Nat) : Prop where
  follows : ∃ t, Follows J.env s t ∧ s'.current = t.current ∧ s'.blocks = t.blocks
  size : s'.size ≤ s.size + n

section

variable (hc : Ready J s c) (hl : Lowered J s done) (hi : J.env.module.inst inst = .ok i)
  (hnew : inst ∉ done) (hroom : s.size + 12 * (1 + i.operands.length) < 2 ^ 32)

include hc hl hi hnew hroom

/-- An instruction whose code can be selected lowers. -/
theorem lowerInst_total_of_select
    (hselect : Total J (12 * (1 + i.operands.length)) s (selectInst inst i)
      (Selected i)) :
    ∃ s' c', Runs (lowerInst inst) J.env s () s' ∧ Ready J s' c' ∧
      Advances J s s' (12 * (1 + i.operands.length)) ∧ Lowered J s' (done ++ [inst]) := by
  obtain ⟨r, t, c', hlower, hc', hfollows, hsize, hunbound, hsel⟩ :=
    lowerInst_runs_of_select hc hi (hl.unbound inst i hi hnew) hselect hroom
  have hl' := hl.later hfollows
  refine ⟨_, c', hlower, hc', ⟨⟨t, hfollows, t.bound_current _ r, t.bound_blocks _ r⟩,
    (t.bound_size _ r).symm ▸ hsize⟩, ?_⟩
  cases r with
  | some id =>
    refine hl'.bind hi hunbound rfl rfl (fun hscalar => ?_) (.inl rfl)
    obtain ⟨id', o, w, hid, ho, hw, hval⟩ := hsel hscalar
    cases hid
    exact ⟨o, w, ho, hw, hval⟩
  | none =>
    refine hl'.nothing hi ?_
    cases hscalar : i.ty.isScalar with
    | false => rfl
    | true =>
      obtain ⟨id', o, w, hid, -⟩ := hsel hscalar
      cases hid

/-- A phi gets a register of its width. -/
theorem lowerInst_phi_total (hop : i.opcode = .phi) (hscalar : i.ty.isScalar = true) :
    ∃ s' c', Runs (lowerInst inst) J.env s () s' ∧ Ready J s' c' ∧
      Advances J s s' (12 * (1 + i.operands.length)) ∧ Lowered J s' (done ++ [inst]) := by
  obtain ⟨st, hw, -⟩ := storage_of_isScalar hscalar
  obtain ⟨st', hst', hwidth⟩ := scalarStorage_of_width "phi" hw
  obtain ⟨id, t, hrun, hfollows, hsize, r, ho⟩ :=
    newVReg_total (S := J) st' c hc (by omega)
  obtain ⟨d, hd⟩ := hc.later hfollows
  have hl' := hl.later hfollows
  have hunbound := hl'.unbound inst i hi hnew
  have hselect : Runs (selectInst inst i) J.env s none
      { t with
        values := t.values.insert i.value id
        pendingPhis := t.pendingPhis ++ [inst] } := by
    simp only [selectInst, hop]
    refine runs_map.mpr ⟨(), ?_, rfl⟩
    simp only [lowerPhi, runs_bind, runs_check, runs_bindValue, runs_modify]
    exact ⟨st', s, ⟨hst', rfl⟩, id, t, hrun, (), _, ⟨hunbound, rfl⟩, rfl⟩
  have hlower := runs_lowerInst_of hi hselect (.inr rfl)
  obtain ⟨c', hc'⟩ := hc.lowerInst hd hlower rfl
  refine ⟨_, c', hlower, hc', ⟨⟨t, hfollows, rfl, rfl⟩, Nat.le_trans hsize (by omega)⟩,
    hl'.bind hi hunbound rfl rfl (fun _ => ?_) (.inr ⟨rfl, hop, r, st', ho⟩)⟩
  exact ⟨_, st.width, ho, hw, hwidth ▸ (Operand.inReg_virt r st').direct.value⟩

/-- One well-typed instruction lowers, whatever was lowered before it. -/
theorem lowerInst_total {all : InstId → Prop}
    (ht : J.env.module.WellTyped J.func (· ∈ done) i J.f.sig.ret all) :
    ∃ s' c', Runs (lowerInst inst) J.env s () s' ∧ Ready J s' c' ∧
      Advances J s s' (12 * (1 + i.operands.length)) ∧ Lowered J s' (done ++ [inst]) := by
  cases ht with
  | computes h =>
    exact lowerInst_total_of_select hc hl hi hnew hroom (selectInst_computes_total hl h)
  | accesses h =>
    exact lowerInst_total_of_select hc hl hi hnew hroom (selectInst_accesses_total hl h)
  | transfers h =>
    exact lowerInst_total_of_select hc hl hi hnew hroom (selectInst_transfers_total hl h)
  | phi op scalar => exact lowerInst_phi_total hc hl hi hnew hroom op scalar

end

end

end InstSelect.Lowering
