import InstSelect.Proofs.Disciplines
import InstSelect.Proofs.TidyCode

/-!
# Selection is tidy

Every selection routine keeps the discipline of virtual registers, for every calling
convention: its code is tidy, and where it answers with a new operand that operand is a
register of the instruction's own. The routines are taken in the order in which they build
on each other; what a whole instruction does is the last lemma.
-/

namespace InstSelect.Lowering

open IR (ValueId InstId Inst Ty Predicate)
open Machine (Storage Operand OperandId Op PhysReg Reg VReg Address Cond Code)

variable {α : Type} {env : Env} {s s' t u : State} {b n : Nat}
  {id src lhs rhs dst base : OperandId} {o : Operand} {P : Operand → Prop} {w : Unit}
  {st : Storage} {v index gep : ValueId} {op : Op} {i : Inst} {address : Partial}
  {x : LowerM OperandId} {r : Option OperandId} {size : UInt64} {ty : Ty}
  {regs : List PhysReg} {xs : List (OperandId × Nat)} {signed remainder : Bool}

/-- The function being built has an operand under an id. -/
abbrev Present (s : State) (id : OperandId) : Prop := s.Stands id fun _ => True

theorem State.Stands.present (h : s.Stands id P) : Present s id :=
  h.imp fun _ _ => trivial

/-- What is read exists. -/
theorem holds_of_operand (h : Runs (operand id) env s o s') : s = s' ∧ s.Holds id o := by
  obtain ⟨c, hc, ho, rfl⟩ := runs_operand.mp h
  exact ⟨rfl, c, hc, ho⟩

theorem present_of_operand (h : Runs (operand id) env s o s) : Present s id :=
  fun _ => ⟨o, (holds_of_operand h).2, trivial⟩

/-! ## Tidy steps -/

/-- Tidy stretches that stay in their block. -/
def tidy (env : Env) (b : Nat) : Discipline env where
  Starts := Underway env b
  Leads s t := Tidily env b s [] t
  refl := .refl
  trans := .seq
  goesOn hu h := h.underway hu

/-- A step whose code is tidy and stays in its block, with what is known of its answer. -/
abbrev Tidies (env : Env) (b : Nat) (s : State) (x : LowerM α) (Q : α → State → Prop) :
    Prop :=
  Along (tidy env b) s x Q

/-- A step that answers with a register of its own. -/
abbrev Produces (env : Env) (b : Nat) (s : State) (x : LowerM OperandId) : Prop :=
  Tidies env b s x fun id t => t.Stands id (Fresh b)

/-- A copy is a `mov` or a `lea`. -/
theorem runs_materialize (h : Runs (materialize dst src) env s w s') :
    ∃ o, s.Holds src o ∧ Runs (emit o.copyOp [dst, src]) env s w s' := by
  simp only [materialize, copyOp, runs_bind, runs_pure] at h
  obtain ⟨_, _, ⟨o, _, ho, rfl, rfl⟩, hemit⟩ := h
  obtain ⟨rfl, hread⟩ := holds_of_operand ho
  exact ⟨o, hread, hemit⟩

/-- A register that is no older virtual one. -/
def OwnRegister (b : Nat) (o : Operand) : Prop := Own b o ∧ o.isRegister = true

theorem Fresh.narrow (h : Fresh b o) : o.narrow = true := by
  obtain ⟨r, hform, -⟩ := h
  simp [Operand.narrow, Operand.isImm, hform]

theorem OwnRegister.narrow (h : OwnRegister b o) : o.narrow = true := by
  obtain ⟨form, st⟩ := o
  cases form <;> first | rfl | cases h.2

theorem defines_copyOp (o : Operand) : o.copyOp.defines = true := by
  unfold Operand.copyOp
  split <;> rfl

theorem defines_wideningOp (signed : Bool) :
    (if signed then Op.movsx else Op.movzx).defines = true := by
  split <;> rfl

theorem shiftOp_plain (right signed : Bool) :
    (shiftOp right signed).isTerminator = false ∧
      (shiftOp right signed).acceptsWide = false := by
  cases right <;> cases signed <;> exact ⟨rfl, rfl⟩

namespace Along

variable {op : Op} {dst : OperandId} {ids rest : List OperandId} {st : Storage}
  {k : OperandId → LowerM α} {Q : α → State → Prop}

/-- A new operand that needs no register. -/
theorem adds (h : ∀ id t, Runs x env s id t → ∃ o, Adds env s t id o ∧ P o) :
    Tidies env b s x fun id t => t.Stands id P := by
  intro hu id t hrun
  obtain ⟨o, hadds, ho⟩ := h id t hrun
  obtain ⟨c, hc⟩ := (hu.path hadds.path).settled
  exact ⟨.of_adds hadds, (hadds.stands hc.current).imp fun _ h => h ▸ ho⟩

/-- An instruction that names no destination. -/
theorem plain (hstays : op.isTerminator = false) (hop : op.writes = false)
    (htakes : Takes s op ids) :
    Tidies env b s (emit op ids) fun _ _ => True :=
  fun hu _ _ h =>
    ⟨emit_tidily hu hstays htakes (fun hw => by rw [hop] at hw; cases hw) h, trivial⟩

/-- An instruction that goes on computing in an own register or writes none. -/
theorem update (hstays : op.isTerminator = false) (hdst : s.Stands dst (Own b))
    (htakes : Takes s op (dst :: rest)) :
    Tidies env b s (emit op (dst :: rest)) fun _ _ => True := by
  refine fun hu _ _ h => ⟨emit_tidily hu hstays htakes (fun _ id hid => ?_) h, trivial⟩
  cases hid
  exact hdst

/-- A move into a register that is no older one. -/
theorem move (hdst : s.Stands dst (OwnRegister b)) :
    Tidies env b s (emit .mov [dst, src]) fun _ _ => True :=
  update rfl (hdst.imp fun _ ho => ho.1) (.register (hdst.imp fun _ ho => ho.2))

/-- A copy into a register that is no older one. -/
theorem copy (hdst : s.Stands dst (OwnRegister b)) :
    Tidies env b s (materialize dst src) fun _ _ => True := by
  intro hu _ _ h
  obtain ⟨o, -, hemit⟩ := runs_materialize h
  unfold Operand.copyOp at hemit
  split at hemit
  · exact update rfl (hdst.imp fun _ ho => ho.1) (.free rfl) hu hemit
  · exact move hdst hu hemit

/--
A fresh register, defined by one instruction from operands that are there, and what
follows.
-/
theorem define (hop : op.defines = true) (hrest : ∀ id ∈ rest, Present s id)
    (hk : ∀ dst t, Tidily env b s [] t → t.Stands dst (Fresh b) →
      Tidies env b t (k dst) Q) :
    Tidies env b s (do
      let dst ← newVReg st
      emit op (dst :: rest)
      k dst) Q := by
  intro hu a u hrun
  obtain ⟨dst, s1, hnew, _, s2, hemit, hrun⟩ := by simpa only [runs_bind] using hrun
  obtain ⟨ht, hdst⟩ := define_tidily hu hnew (.refl s1) rfl hop
    (fun id hid => hu.older (hrest id hid) hnew (.refl s1)) hemit
  obtain ⟨ht', hQ⟩ := hk dst s2 ht hdst (ht.underway hu) hrun
  exact ⟨ht.seq ht', hQ⟩

/-- A fresh register, defined by one instruction from one operand. -/
theorem fill (hop : op.defines = true) (hsrc : Present s src) :
    Produces env b s (do
      let dst ← newVReg st
      emit op [dst, src]
      Pure.pure dst) :=
  define hop (List.forall_mem_singleton.mpr hsrc) fun _ _ _ hdst => .pure hdst

/-- A fresh register, defined by a copy of an operand that is there, and what follows. -/
theorem defineCopy (hsrc : Present s src)
    (hk : ∀ dst t, Tidily env b s [] t → t.Stands dst (Fresh b) →
      Tidies env b t (k dst) Q) :
    Tidies env b s (do
      let dst ← newVReg st
      materialize dst src
      k dst) Q := by
  intro hu a u hrun
  obtain ⟨dst, s1, hnew, _, s2, hcopy, hrun⟩ := by simpa only [runs_bind] using hrun
  obtain ⟨o, -, hemit⟩ := runs_materialize hcopy
  exact define (defines_copyOp o) (List.forall_mem_singleton.mpr hsrc) hk hu
    (runs_bind.mpr ⟨dst, s1, hnew, runs_bind.mpr ⟨_, s2, hemit, hrun⟩⟩)

end Along

theorem imm_tidily {n : Int64} : Tidies env b s (imm n st) fun id t => Present t id :=
  .adds fun _ _ h => ⟨_, imm_adds h, trivial⟩

theorem physReg_tidily {r : PhysReg} :
    Tidies env b s (physReg r st) fun id t => t.Stands id (OwnRegister b) :=
  .adds fun _ _ h => ⟨_, physReg_adds h, fun _ hform => (by cases hform), rfl⟩

/-! ## Operands -/

/-- Resolving a value needs no code. -/
theorem resolve_tidily :
    Tidies env b s (resolve v) fun id t => t.Stands id (LabelOf env t v) := by
  intro hu id t h
  obtain ⟨hpath, hvregs, hfind⟩ := resolve_path h
  obtain ⟨c, hc⟩ := (hu.path hpath).settled
  exact ⟨.of_path hpath hvregs, hc.values v id hfind⟩

theorem copyToVReg_tidily : Produces env b s (copyToVReg src) :=
  .read (.operand src) fun _ ho => .defineCopy (present_of_operand ho) fun _ _ _ hdst =>
    .pure hdst

theorem keepOrCopy_tidily {keep : Prop} [Decidable keep]
    (ho : Runs (operand src) env s o s) :
    Tidies env b s (if keep then pure src else copyToVReg src) fun id t =>
      t.Stands id fun o' => keep ∧ o' = o ∨ Fresh b o' :=
  .ite (fun hkeep => .pure fun _ => ⟨o, (holds_of_operand ho).2, .inl ⟨hkeep, rfl⟩⟩)
    fun _ =>
    copyToVReg_tidily.imp fun _ _ _ hid => hid.imp fun _ => .inr

theorem intoRegister_tidily :
    Tidies env b s (intoRegister src) fun id t => t.Stands id fun o => ∀ mb,
      o.form ≠ .label mb := by
  refine .read (.operand src) fun o ho => (keepOrCopy_tidily ho).imp fun id t _ hid =>
    hid.imp ?_
  rintro o' (⟨hreg, rfl⟩ | ⟨r, hform, -⟩) mb hlabel
  · rw [Operand.isRegister, hlabel] at hreg
    cases hreg
  · cases hform.symm.trans hlabel

theorem valueOperand_tidily : Tidies env b s (valueOperand v) fun id t => Present t id :=
  resolve_tidily.bind fun _ _ _ _ => .read (.operand _) fun _ ho =>
    .ite (fun _ => (Along.fill rfl (present_of_operand ho)).imp fun _ _ _ hdst =>
      hdst.present) fun _ =>
      .pure (present_of_operand ho)

theorem addressRegister_tidily :
    Tidies env b s (addressRegister v) fun id t => Present t id :=
  valueOperand_tidily.bind fun _ _ _ _ => intoRegister_tidily.imp fun _ _ _ hid =>
    hid.present

theorem aluSource_tidily :
    Tidies env b s (aluSource src) fun id t => t.Stands id (·.narrow = true) :=
  .read (.operand src) fun o ho =>
    .ite (fun _ => copyToVReg_tidily.imp fun _ _ _ hid => hid.imp fun _ => Fresh.narrow)
      fun hfits =>
      .pure fun _ => ⟨o, (holds_of_operand ho).2, by grind [Operand.narrow]⟩

/-! ## Integer instructions -/

theorem binarySource_tidily (hop : op ≠ .test) :
    Tidies env b s (binarySource op src) fun id t => ∀ dst, Takes t op [dst, id] :=
  .ite (fun himul => .read (.operand src) fun _ ho =>
    (keepOrCopy_tidily ho).imp fun _ _ _ _ _ =>
    .free (by rw [himul]; rfl)) fun _ => aluSource_tidily.imp fun _ _ _ hid _ =>
      .narrow hop hid

theorem lowerBinary_tidily (hstays : op.isTerminator = false) (hop : op ≠ .test) :
    Produces env b s (lowerBinary op i) :=
  .check fun _ _ => .check fun _ _ => resolve_tidily.bind fun _ _ _ hl =>
    valueOperand_tidily.bind fun _ _ t2 _ =>
    .defineCopy (hl.present.later t2.follows) fun _ _ _ hdst =>
      (binarySource_tidily hop).bind fun _ _ t4 hsrc =>
    (Along.update hstays ((hdst.later t4.follows).imp fun _ => Fresh.own) (hsrc _)).bind
      fun _ _ t5 _ =>
    .pure ((hdst.later t4.follows).later t5.follows)

theorem orderOperands_tidily {cond : Cond} :
    Tidies env b s (orderOperands cond lhs rhs) fun _ _ => True := by
  refine .read (.operand _) fun left _ => .read (.operand _) fun right _ => ?_
  split
  · exact .pure trivial
  · exact copyToVReg_tidily.bind fun _ _ _ _ => .pure trivial
  · exact .pure trivial

theorem compareSource_tidily : Tidies env b s (compareSource lhs rhs) fun _ _ => True :=
  .read (.operand _) fun _ _ => .read (.operand _) fun _ _ =>
    .ite (fun _ => copyToVReg_tidily.imp fun _ _ _ _ => trivial) fun _ => .pure trivial

theorem lowerCompare_tidily {predicate : Predicate} :
    Produces env b s (lowerCompare predicate i) :=
  .check fun _ _ => .read .sourceModule fun _ _ => .check fun _ _ => .check fun _ _ =>
    valueOperand_tidily.bind fun _ _ _ _ => valueOperand_tidily.bind fun _ _ _ _ =>
    orderOperands_tidily.bind fun _ _ _ _ => compareSource_tidily.bind fun _ _ _ _ =>
    aluSource_tidily.bind fun _ _ _ hsrc =>
      (Along.plain rfl rfl (.narrow (by decide) hsrc)).bind fun _ _ _ _ =>
    .define rfl (List.forall_mem_nil _) fun _ _ _ hdst => .pure hdst

theorem lowerTrunc_tidily : Produces env b s (lowerTrunc i) := by
  refine .check fun _ _ => .check fun _ _ => valueOperand_tidily.bind fun _ _ _ hsrc =>
    .read (.operand _) fun o _ => .check fun _ _ => ?_
  split
  · exact imm_tidily.bind fun _ _ _ him => .fill rfl him
  · exact .fill rfl hsrc

theorem lowerExtend_tidily (hop : op.defines = true) :
    Produces env b s (lowerExtend op i) :=
  .check fun _ _ => .check fun _ _ => valueOperand_tidily.bind fun _ _ _ _ =>
    .read (.operand _) fun _ ho => .check fun _ _ => .ite
      (fun _ => copyToVReg_tidily.bind fun _ _ _ hsrc => .fill hop hsrc.present)
      fun _ => .fill hop (present_of_operand ho)

theorem lowerReinterpret_tidily :
    Tidies env b s (lowerReinterpret i) fun id t => t.Stands id fun o => ∀ mb,
      o.form ≠ .label mb :=
  .check fun _ _ => .check fun _ _ => resolve_tidily.bind fun _ _ _ _ =>
    intoRegister_tidily

/-! ## Memory -/

theorem memoryAt_tidily :
    Tidies env b s (memoryAt base st) fun id t => t.Stands id (Own b) := by
  refine .adds fun _ _ h => ?_
  obtain ⟨r, hadds⟩ := memoryAt_adds h
  exact ⟨_, hadds, fun _ hform => by cases hform⟩

theorem lowerLoad_tidily : Produces env b s (lowerLoad i) :=
  .check fun _ _ => .check fun _ _ => addressRegister_tidily.bind fun _ _ _ _ =>
    memoryAt_tidily.bind fun _ _ _ hmem => .fill rfl hmem.present

theorem lowerStore_tidily : Tidies env b s (lowerStore i) fun _ _ => True :=
  .check fun _ _ => .read .sourceModule fun _ _ => .check fun _ _ => .check fun _ _ =>
    valueOperand_tidily.bind fun _ _ _ _ => aluSource_tidily.bind fun _ _ _ hsrc =>
    addressRegister_tidily.bind fun _ _ t1 _ => memoryAt_tidily.bind fun _ _ t2 hmem =>
    .update rfl hmem (.narrow (by decide) (hsrc.later (t1.seq t2).follows))

/-! ## Element addresses -/

/-- A register that is read through an id is one that the id's operand names. -/
theorem lt_of_regOf {r : Reg} {q : VReg} (h : Runs (regOf base) env s r s')
    (hbase : s.Stands base (·.Below n)) (hsmall : s.Small) (hq : r = .virt q) :
    q.index.toNat < n := by
  obtain ⟨o, ho, hreg⟩ := runs_regOf.mp h
  obtain ⟨rfl, hread⟩ := holds_of_operand ho
  obtain ⟨o', ho', hbelow⟩ := hbase hsmall
  cases hread.unique ho'
  refine hbelow q ?_
  subst hq
  obtain ⟨form, st⟩ := o
  cases form with
  | virt r =>
    cases hreg
    exact List.mem_singleton.mpr rfl
  | _ => cases hreg

theorem mem_stands {a : Address} (h : Runs (mem a st) env s id s') :
    s'.Stands id (· = ⟨.mem a, st⟩) := by
  obtain ⟨c, hc, hopen, -, rfl, rfl⟩ := runs_mem.mp h
  exact .of_get rfl fun _ => get?_nextId

/-- A memory reference names the registers of its base and its index. -/
theorem memoryOperand_stands {index : Option (OperandId × UInt8)}
    (hbase : s.Stands address.base (·.Below n))
    (hindex : ∀ p ∈ index, s.Stands p.1 (·.Below n))
    (h : Runs (memoryOperand address index) env s id s') :
    s'.Stands id (·.Below n) := by
  obtain ⟨hpath, -⟩ := memoryOperand_path h
  simp only [memoryOperand, runs_bind] at h
  obtain ⟨r, _, hr, h⟩ := h
  obtain ⟨rfl, -⟩ := exists_virt_of_regOf hr
  intro hsmall
  have hsmall' := hsmall.earlier (.of_path hpath)
  cases index with
  | none =>
    obtain ⟨o, ho, rfl⟩ := mem_stands h hsmall
    refine ⟨_, ho, fun q hq => ?_⟩
    rcases List.mem_cons.mp (Operand.mem_vregs_of_mem.mp hq) with hq | hq
    · exact lt_of_regOf hr hbase hsmall' hq.symm
    · cases hq
  | some pair =>
    obtain ⟨index, scale⟩ := pair
    simp only [runs_bind, runs_storage, runs_check] at h
    obtain ⟨_, _, ⟨o, ho, rfl⟩, _, _, ⟨-, rfl⟩, x, _, hx, a, _, ⟨ha, rfl⟩, h⟩ := h
    obtain ⟨rfl, -⟩ := holds_of_operand ho
    obtain ⟨rfl, -⟩ := exists_virt_of_regOf hx
    obtain ⟨_, -, hpure⟩ := bind_eq_ok.mp ha
    obtain rfl := pure_eq_ok.mp hpure
    obtain ⟨o', ho', rfl⟩ := mem_stands h hsmall
    refine ⟨_, ho', fun q hq => ?_⟩
    rcases List.mem_cons.mp (Operand.mem_vregs_of_mem.mp hq) with hq | hq
    · exact lt_of_regOf hr hbase hsmall' hq.symm
    · exact lt_of_regOf hx (hindex _ rfl) hsmall' (List.mem_singleton.mp hq).symm

theorem loadAddress_tidily {index : Option (OperandId × UInt8)}
    (hbase : Present s address.base) (hindex : ∀ p ∈ index, Present s p.1) :
    Produces env b s (loadAddress address index) := by
  intro hu id u h
  simp only [loadAddress, runs_bind, runs_pure] at h
  obtain ⟨dst, s1, hnew, memory, s2, hmem, _, s3, hlea, rfl, rfl⟩ := h
  obtain ⟨p2, n2⟩ := memoryOperand_path hmem
  refine define_tidily hu hnew p2 n2 rfl (fun id hid => ?_) hlea
  cases List.mem_singleton.mp hid
  exact memoryOperand_stands (hu.older hbase hnew (.refl s1))
    (fun p hp => hu.older (hindex p hp) hnew (.refl s1)) hmem

/-- A step that answers with a partial address whose base is there. -/
abbrev Addresses (env : Env) (b : Nat) (s : State) (x : LowerM Partial) : Prop :=
  Tidies env b s x fun address t => Present t address.base

theorem flush_tidily (hbase : Present s address.base) :
    Tidies env b s (flush address) fun id t => Present t id :=
  .ite (fun _ => .pure hbase) fun _ =>
    (loadAddress_tidily hbase (by simp)).imp fun _ _ _ hid => hid.present

theorem addOffset_tidily {offset : Int64} (hbase : Present s address.base) :
    Addresses env b s (addOffset address offset) := by
  refine .checkWord fun total _ => ?_
  split
  · exact .pure hbase
  · refine (flush_tidily hbase).bind fun base _ _ hbase' => ?_
    split
    · exact .pure hbase'
    · exact imm_tidily.bind fun _ _ t1 _ =>
        copyToVReg_tidily.bind fun amount _ t2 hamount =>
        (loadAddress_tidily ((hbase'.later t1.follows).later t2.follows) fun p hp => by
          cases hp
          exact hamount.present).bind fun _ _ _ hdst => .pure hdst.present

theorem indexRegister_tidily :
    Tidies env b s (indexRegister index) fun id t => Present t id :=
  .read (.isSigned _) fun _ _ => valueOperand_tidily.bind fun _ _ _ _ =>
    intoRegister_tidily.bind fun _ _ _ hid =>
    .read (.storage _) fun _ _ => .ite (fun _ => .pure hid.present) fun _ =>
      (Along.fill (defines_wideningOp _) hid.present).imp fun _ _ _ hdst => hdst.present

theorem addProduct_tidily {index : OperandId} (hbase : Present s address.base)
    (hindex : Present s index) : Addresses env b s (addProduct address index size) :=
  .define rfl (List.forall_mem_singleton.mpr hindex) fun _ _ t1 hproduct =>
    imm_tidily.bind fun _ _ t2 _ => copyToVReg_tidily.bind fun _ _ t3 _ =>
    (Along.update rfl ((hproduct.later (t2.seq t3).follows).imp fun _ => Fresh.own)
      (.free rfl)).bind fun _ _ t4 _ =>
    .define rfl (List.forall_mem_singleton.mpr
      (hbase.later (t1.seq (t2.seq (t3.seq t4))).follows))
      fun _ _ t5 hsum =>
      (Along.update rfl (hsum.imp fun _ => Fresh.own) (.narrow (by decide)
        ((hproduct.later (t2.seq (t3.seq (t4.seq t5))).follows).imp
          fun _ => Fresh.narrow))).bind fun _ _ t6 _ =>
    .pure (hsum.later t6.follows).present

theorem addScaledIndex_tidily (hbase : Present s address.base) :
    Addresses env b s (addScaledIndex address index size) := by
  refine indexRegister_tidily.bind fun index _ t1 hindex => ?_
  have hbase1 := hbase.later t1.follows
  split
  · exact (loadAddress_tidily hbase1 fun p hp => by
      cases hp
      exact hindex).bind fun _ _ _ hdst => .pure hdst.present
  · exact addProduct_tidily hbase1 hindex

theorem stepElement_tidily {element : Ty} (hbase : Present s address.base) :
    Addresses env b s (stepElement gep address element index) := by
  refine .checkWord fun _ _ => .read .sourceModule fun _ _ => .check fun found _ => ?_
  cases found with
  | some step => exact .check fun _ _ => addOffset_tidily hbase
  | none => exact addScaledIndex_tidily hbase

theorem stepInto_tidily (hbase : Present s address.base) :
    Tidies env b s (stepInto gep address ty index) fun r t => Present t r.1.base := by
  unfold stepInto
  split
  · refine .read .sourceModule fun _ _ => .check fun found _ => ?_
    cases found with
    | none => exact .refuse
    | some field =>
      exact .check fun _ _ => .checkWord fun _ _ =>
        (addOffset_tidily hbase).bind fun _ _ _ h => .pure h
  · exact (stepElement_tidily hbase).bind fun _ _ _ h => .pure h
  · exact (stepElement_tidily hbase).bind fun _ _ _ h => .pure h
  · exact .refuse

/-- A walk is tidy, one step after the other. -/
theorem walk_tidily {indices : List ValueId} (hbase : Present s address.base) :
    Addresses env b s (walk gep indices address ty) := by
  induction indices generalizing s address ty with
  | nil => exact .pure hbase
  | cons index rest ih => exact (stepInto_tidily hbase).bind fun _ _ _ h => ih h

theorem lowerGep_tidily : Produces env b s (lowerGep i) := by
  unfold lowerGep
  split
  · exact .refuse
  · exact addressRegister_tidily.bind fun _ _ _ hbase => .read .sourceModule fun _ _ =>
      .check fun _ _ =>
      (walk_tidily hbase).bind fun _ _ _ h => loadAddress_tidily h (by simp)

/-! ## Saved arguments -/

/-- Arguments are found in physical registers. -/
theorem argsIn_own (hu : Underway env b s) (h : Runs (argsIn regs) env s xs s') :
    s = s' ∧ ∀ x ∈ xs, s.Stands x.1 (OwnRegister b) := by
  obtain ⟨rfl, c, hc, hxs⟩ := argsIn_filter h
  refine ⟨rfl, fun x hx _ => ?_⟩
  have hmem : x ∈ c.machine.args.zipIdx := by
    rw [hxs (fun x => (c.machine.operands[x.1.index.toNat]?.map (inRegs regs)).getD false)
      (by
      intro x o ho
      obtain ⟨d, hd, hget, -⟩ := runs_operand.mp ho
      cases hc.symm.trans hd
      rw [hget]
      rfl)] at hx
    exact (List.mem_filter.mp hx).1
  obtain ⟨d, hd⟩ := hu.settled
  cases hc.symm.trans hd.current
  obtain ⟨r, st, ho⟩ := hd.args x.1 (List.fst_mem_of_mem_zipIdx hmem)
  exact ⟨_, ho, fun q hq => (by cases hq), rfl⟩

/-- The home of an argument is memory. -/
theorem shadowSlot_tidily {j : Nat} :
    Tidies env b s (shadowSlot j st) fun id t => t.Stands id (Own b) := by
  refine .read .theAbi fun _ _ => .checkWord fun _ _ => .adds fun _ _ h =>
    ⟨_, mem_adds h fun c r _ hr => ?_, ?_⟩
  · rcases List.mem_cons.mp hr with hr | hr <;> cases hr
  · rintro r hform
    cases hform

theorem saveArg_tidily {x : OperandId × Nat} (hx : s.Stands x.1 (OwnRegister b)) :
    Tidies env b s (saveArg x) fun y _ => y.1 = x.1 :=
  .read (.storage _) fun _ _ => shadowSlot_tidily.bind fun _ _ t1 hown =>
    (Along.update rfl hown
      (.narrow (by decide) ((hx.later t1.follows).imp fun _ => OwnRegister.narrow))).bind
      fun _ _ _ _ => .pure rfl

theorem saveArgs_tidily (hxs : ∀ x ∈ xs, s.Stands x.1 (OwnRegister b)) :
    Tidies env b s (xs.mapM saveArg) fun ys _ => ∀ y ∈ ys, ∃ x ∈ xs, y.1 = x.1 := by
  induction xs generalizing s with
  | nil =>
    rw [List.mapM_nil]
    exact .pure (by simp)
  | cons x xs ih =>
    rw [List.mapM_cons]
    rw [List.forall_mem_cons] at hxs
    refine (saveArg_tidily hxs.1).bind fun y _ t1 hxy =>
      (ih fun z hz => (hxs.2 z hz).later t1.follows).bind fun ys _ _ hrest =>
      .pure (List.forall_mem_cons.mpr ⟨⟨x, List.mem_cons_self, hxy⟩, fun z hz => ?_⟩)
    obtain ⟨x', hx', heq⟩ := hrest z hz
    exact ⟨x', List.mem_cons_of_mem _ hx', heq⟩

theorem reloadArgs_tidily {ys : List (OperandId × OperandId)}
    (hys : ∀ y ∈ ys, s.Stands y.1 (OwnRegister b)) :
    Tidies env b s (ys.forM reloadArg) fun _ _ => True := by
  induction ys generalizing s with
  | nil => exact .pure trivial
  | cons y ys ih =>
    rw [List.forall_mem_cons] at hys
    exact (Along.move hys.1).bind fun _ _ t1 _ => ih fun z hz =>
      (hys.2 z hz).later t1.follows

/-- Saves and reloads around a tidy body are tidy. -/
theorem preserving_tidily {body : LowerM α} {Q : α → State → Prop}
    (hbody : ∀ t, Tidily env b s [] t → Tidies env b t body Q)
    (hlater : ∀ a t u, Tidily env b t [] u → Q a t → Q a u) :
    Tidies env b s (preserving regs body) Q := by
  intro hu a u h
  obtain ⟨xs, s1, hxs, h⟩ := runs_bind.mp h
  obtain ⟨rfl, hown⟩ := argsIn_own hu hxs
  have hrest : Tidies env b s (do
      let saved ← xs.mapM saveArg
      let result ← body
      saved.forM reloadArg
      pure result) Q :=
    (saveArgs_tidily hown).bind fun ys _ t1 hsaved => (hbody _ t1).bind fun _ _ t2 hQ =>
      (reloadArgs_tidily fun y hy => by
        obtain ⟨x, hx, heq⟩ := hsaved y hy
        rw [heq]
        exact (hown x hx).later (t1.seq t2).follows).bind fun _ _ t3 _ =>
          .pure (hlater _ _ _ t3 hQ)
  exact hrest hu h

theorem shiftByRegister_tidily {amount : OperandId}
    (hop : op.isTerminator = false ∧ op.acceptsWide = false)
    (hdst : s.Stands dst (Fresh b)) :
    Tidies env b s (shiftByRegister op dst amount) fun _ _ => True :=
  .read (.storage _) fun _ _ => preserving_tidily
    (fun _ t1 => physReg_tidily.bind fun _ _ t2 hrcx =>
      (Along.move hrcx).bind fun _ _ t3 _ =>
        physReg_tidily.bind fun _ _ t4 _ =>
        .update hop.1 ((hdst.later (t1.seq (t2.seq (t3.seq t4))).follows).imp
          fun _ => Fresh.own) (.free hop.2))
    fun _ _ _ _ h => h

theorem lowerShift_tidily {right : Bool} : Produces env b s (lowerShift right i) := by
  refine .check fun _ _ => .check fun _ _ => .read (.isSigned _) fun _ _ =>
    resolve_tidily.bind fun _ _ _ hl =>
    .defineCopy hl.present fun dst _ _ hdst => valueOperand_tidily.bind fun _ _ t2 _ =>
    .read (.operand _) fun o _ => ?_
  have hdst2 := hdst.later t2.follows
  split
  · exact imm_tidily.bind fun _ _ t3 _ =>
      (Along.update (shiftOp_plain _ _).1
        ((hdst2.later t3.follows).imp fun _ => Fresh.own)
        (.free (shiftOp_plain _ _).2)).bind fun _ _ t4 _ =>
      .pure ((hdst2.later t3.follows).later t4.follows)
  · exact (shiftByRegister_tidily (shiftOp_plain _ _) hdst2).bind fun _ _ t3 _ =>
      .pure (hdst2.later t3.follows)

/-! ## Divisions -/

theorem widen_tidily {target : Storage} :
    Tidies env b s (widen src target signed) fun _ _ => True := by
  refine .read (.operand src) fun o ho => ?_
  split
  · exact imm_tidily.imp fun _ _ _ _ => trivial
  · exact (Along.fill (defines_wideningOp _) (present_of_operand ho)).imp fun _ _ _ _ =>
      trivial

theorem divisorOperand_tidily : Tidies env b s (divisorOperand src) fun _ _ => True := by
  refine .read (.operand src) fun o _ => ?_
  split
  · exact .pure trivial
  · exact .pure trivial
  · exact copyToVReg_tidily.imp fun _ _ _ _ => trivial

theorem dividePair_tidily {work : Storage} :
    Produces env b s (dividePair work signed remainder lhs rhs) := by
  refine physReg_tidily.bind fun low _ _ hlow =>
    physReg_tidily.bind fun high _ t2 hhigh =>
    (Along.move (hlow.later t2.follows)).bind fun _ s3 t3 _ => ?_
  -- Both kinds of division end in the same copy of the result.
  have hresult : ∀ u, Tidily env b s3 [] u →
      Present u (if remainder then high else low) := by
    intro u t4
    split
    · exact ((hhigh.later t3.follows).later t4.follows).present
    · exact (((hlow.later t2.follows).later t3.follows).later t4.follows).present
  refine .ite (fun _ => .check fun op hop => ?_) fun _ => ?_
  · have hplain : op.isTerminator = false ∧ op.writes = false ∧
        op.acceptsWide = false := by
      rcases Machine.signExtension_op hop with rfl | rfl | rfl <;> exact ⟨rfl, rfl, rfl⟩
    exact (Along.plain hplain.1 hplain.2.1 (.free hplain.2.2)).bind fun _ _ t4 _ =>
      (Along.plain rfl rfl (.free rfl)).bind fun _ _ t5 _ =>
      .fill rfl (hresult _ (t4.seq t5))
  · exact (Along.update rfl ((hhigh.later t3.follows).imp fun _ ho => ho.1) .same).bind
      fun _ _ t4 _ =>
      (Along.plain rfl rfl (.free rfl)).bind fun _ _ t5 _ =>
        .fill rfl (hresult _ (t4.seq t5))

theorem lowerDivision_tidily : Produces env b s (lowerDivision remainder i) := by
  refine .check fun st _ => .check fun _ _ => .read (.isSigned _) fun signed _ =>
    valueOperand_tidily.bind fun _ _ _ _ => valueOperand_tidily.bind fun _ _ _ _ => ?_
  have hwiden : ∀ (x : OperandId) (t : State),
      Tidies env b t
        (if workStorage st = st then pure x else widen x (workStorage st) signed)
        fun _ _ => True :=
    fun _ _ => .ite (fun _ => .pure trivial) fun _ => widen_tidily
  refine .ite_bind ((hwiden _ _).bind fun _ _ _ _ =>
    .ite_bind ((hwiden _ _).bind fun _ _ _ _ => ?_))
  exact divisorOperand_tidily.bind fun _ _ _ _ =>
    (preserving_tidily (fun _ _ => dividePair_tidily) fun _ _ _ ht h =>
      h.later ht.follows).bind fun _ _ _ hres =>
    .ite (fun _ => .pure hres) fun _ => .fill rfl hres.present

/-! ## Calls -/

theorem callTarget_tidily {callee : ValueId} :
    Tidies env b s (callTarget callee) fun _ _ => True := by
  refine resolve_tidily.bind fun _ _ _ _ => .read (.operand _) fun o _ => ?_
  split
  · exact .pure trivial
  · exact .pure trivial
  · exact .pure trivial
  · exact copyToVReg_tidily.imp fun _ _ _ _ => trivial

theorem bindArgument_tidily {arg : ValueId} {reg : PhysReg} :
    Tidies env b s (bindArgument arg st reg) fun _ _ => True := by
  refine resolve_tidily.bind fun _ _ _ _ =>
    .read (Inert.machine.bind fun _ => .pure _) fun home _ => ?_
  have hmove : ∀ source t, Tidies env b t (do
      let dst ← physReg reg st
      materialize dst source) fun _ _ => True :=
        fun _ _ => physReg_tidily.bind fun _ _ _ hdst => .copy hdst
  -- An argument of the caller's own comes from its slot; either way only an operand is
  -- added.
  cases home with
  | none => exact hmove _ _
  | some j => exact shadowSlot_tidily.bind fun _ _ _ _ => hmove _ _

theorem bindArguments_tidily {args : List ValueId} {storages : List Storage}
    {rs : List PhysReg} :
    Tidies env b s (bindArguments args storages rs) fun _ _ => True := by
  fun_induction bindArguments args storages rs generalizing s with
  | case1 arg args st storages reg rs ih =>
    exact bindArgument_tidily.bind fun _ _ _ _ => ih
  | case2 => exact .pure trivial

theorem callResult_tidily :
    Tidies env b s (callResult st) fun r t => ∀ id ∈ r, t.Stands id (Fresh b) :=
  .ite (fun _ => .pure (by simp)) fun _ => .read .theAbi fun _ _ =>
    physReg_tidily.bind fun _ _ _ hret =>
    .define rfl (List.forall_mem_singleton.mpr hret.present) fun _ _ _ hdst =>
      .pure fun id hid => by
      cases hid
      exact hdst

theorem lowerCall_tidily :
    Tidies env b s (lowerCall i) fun r t => ∀ id ∈ r, t.Stands id (Fresh b) := by
  have hreserve : ∀ bytes t,
      Tidies env b t (change fun f => pure (f.reserveCallStack bytes)) fun _ _ => True :=
    fun _ _ _ _ _ h =>
      ⟨.of_path (reserveCallStack_path h).1 (reserveCallStack_path h).2, trivial⟩
  refine .read .theAbi fun abi _ => ?_
  split
  · exact .refuse
  · refine .ite (fun _ => .refuse) fun _ => .read .sourceModule fun _ _ =>
      .check fun _ _ => .check fun _ _ =>
      callTarget_tidily.bind fun _ _ _ _ => .checkWord fun _ _ =>
        (hreserve _ _).bind fun _ _ _ _ => ?_
    -- Under the saves: bind the arguments, call, copy the result out.
    exact preserving_tidily
      (fun _ _ => bindArguments_tidily.bind fun _ _ _ _ =>
        (Along.plain rfl rfl (.free rfl)).bind fun _ _ _ _ =>
          callResult_tidily)
      fun _ _ _ ht h id hid => (h id hid).later ht.follows

/-! ## Whole instructions -/

/-- The instructions that leave the block, by the instruction they stand for. -/
inductive Leaves (s : State) (i : Inst) : List Code → Prop
  | br {x : ValueId} {id : OperandId} {o : Operand} (opcode : i.opcode = .br)
      (operands : i.operands = [x]) (bound : s.values.find? x = some id)
      (target : s.Holds id o) :
      Leaves s i [⟨.jmp, [o]⟩]
  | condBr {c x y : ValueId} {idx idy : OperandId} {ox oy : Operand}
      (opcode : i.opcode = .condBr) (operands : i.operands = [c, x, y])
      (ifTrue : s.values.find? x = some idx) (onTrue : s.Holds idx ox)
      (ifFalse : s.values.find? y = some idy) (onFalse : s.Holds idy oy) :
      Leaves s i [⟨.jcc .e, [oy]⟩, ⟨.jmp, [ox]⟩]
  | ret (opcode : i.opcode = .ret) : Leaves s i [⟨.ret, []⟩]
  | stays (opcode : i.opcode.isTerminator = false) : Leaves s i []

theorem lowerBr_tidily (hop : i.opcode = .br) (hu : Underway env b s)
    (h : Runs (lowerBr i) env s w s') :
    ∃ ts, Tidily env b s ts s' ∧ Leaves s' i ts := by
  simp only [lowerBr, runs_bind, runs_check] at h
  obtain ⟨x, _, ⟨hops, rfl⟩, id, s1, hx, hjmp⟩ := h
  obtain ⟨p1, n1, hb⟩ := resolve_path hx
  have t1 := (resolve_tidily hu hx).1
  obtain ⟨os, hos, t2⟩ := leave_tidily (t1.underway hu) rfl hjmp
  obtain ⟨o, _, ho, hnil, rfl⟩ := List.forall₂_cons_left_iff.mp hos
  cases hnil
  exact ⟨_, t1.seq t2, .br hop (unaryOperand_eq_ok.mp hops) (t2.follows.values hb)
    (ho.later t2.follows)⟩

theorem lowerCondBr_tidily (hop : i.opcode = .condBr) (hu : Underway env b s)
    (h : Runs (lowerCondBr i) env s w s') : ∃ ts, Tidily env b s ts s' ∧
      Leaves s' i ts := by
  unfold lowerCondBr at h
  split at h
  · next c x y hops =>
    simp only [runs_bind] at h
    obtain ⟨mid, s1, hmid, reg, s2, hreg, idx, s3, hx, idy, s4, hy, _, s5, htest, _, s6,
      hjcc, hjmp⟩ := h
    have t1 := (valueOperand_tidily hu hmid).1
    have t2 := t1.seq (intoRegister_tidily (t1.underway hu) hreg).1
    obtain ⟨p3, -, hbx⟩ := resolve_path hx
    have t3 := t2.seq (resolve_tidily (t2.underway hu) hx).1
    obtain ⟨p4, -, hby⟩ := resolve_path hy
    have t4 := t3.seq (resolve_tidily (t3.underway hu) hy).1
    have t5 : Tidily env b s4 [] s5 :=
      (Along.plain rfl rfl .same (t4.underway hu) htest).1
    have t15 := t4.seq t5
    obtain ⟨os, hos, t6⟩ := leave_tidily (t15.underway hu) rfl hjcc
    obtain ⟨oy, _, hoy, hnil, rfl⟩ := List.forall₂_cons_left_iff.mp hos
    cases hnil
    obtain ⟨os', hos', t7⟩ := leave_tidily (t6.underway (t15.underway hu)) rfl hjmp
    obtain ⟨ox, _, hox, hnil, rfl⟩ := List.forall₂_cons_left_iff.mp hos'
    cases hnil
    have f6 := t6.follows.trans t7.follows
    have f5 := t5.follows.trans f6
    exact ⟨_, t15.seq (t6.trans t7), .condBr hop hops
      ((Follows.of_path p4).trans f5 |>.values hbx) (hox.later t7.follows) (f5.values hby)
      (hoy.later f6)⟩
  · exact absurd (runs_check.mp h).1 violate_ne_ok

theorem lowerRet_tidily (hop : i.opcode = .ret) (hu : Underway env b s)
    (h : Runs (lowerRet i) env s w s') :
    ∃ ts, Tidily env b s ts s' ∧ Leaves s' i ts := by
  simp only [lowerRet, runs_bind, runs_machine] at h
  obtain ⟨_, _, ⟨c, hc, rfl, rfl⟩, h⟩ := h
  have hret : ∀ {t : State}, Tidily env b s [] t → Runs (emit .ret []) env t w s' →
      ∃ ts, Tidily env b s ts s' ∧ Leaves s' i ts := by
    intro t ht hrun
    obtain ⟨os, hos, t2⟩ := leave_tidily (ht.underway hu) rfl hrun
    cases hos
    exact ⟨_, ht.seq t2, .ret hop⟩
  split at h
  · exact hret (.refl s) h
  · simp only [runs_bind, runs_check, runs_theAbi] at h
    obtain ⟨_, _, ⟨-, rfl⟩, id, s1, hx, _, _, ⟨rfl, rfl⟩, ret, s2, hphys, _, s3, hcopy,
      hrun⟩ := h
    have t1 := (resolve_tidily hu hx).1
    obtain ⟨t2, hreg⟩ := physReg_tidily (t1.underway hu) hphys
    have t12 := t1.seq t2
    exact hret (t12.seq (Along.copy hreg (t12.underway hu) hcopy).1) hrun
  · simp only [runs_bind, runs_check] at h
    obtain ⟨_, _, ⟨hv, -⟩, -⟩ := h
    exact absurd hv violate_ne_ok

/-- A register numbered for an answer, or the slot of an `alloca`. -/
def Answer (b : Nat) (o : Operand) : Prop :=
  Fresh b o ∨ ∃ slot size align, o = ⟨.slot slot size align, .ptr⟩

/--
What an instruction answers with is no label, and its own unless the instruction is a cast
that keeps the bits.
-/
structure Answers (b : Nat) (i : Inst) (o : Operand) : Prop where
  plain : ∀ mb, o.form ≠ .label mb
  own : i.opcode.isReinterpret = false → Answer b o

theorem Fresh.answers (h : Fresh b o) : Answers b i o := by
  refine ⟨fun mb hform => ?_, fun _ => .inl h⟩
  obtain ⟨r, hr, -⟩ := h
  cases hr.symm.trans hform

/-- What an instruction other than a branch or return answers with, and does not do. -/
structure Computes (env : Env) (b : Nat) (i : Inst) (s : State) (r : Option OperandId)
    (s' : State) : Prop where
  tidily : Tidily env b s [] s'
  result : ∀ id ∈ r, s'.Stands id (Answers b i)

theorem Computes.of_some (hx : Tidies env b s x fun id t => t.Stands id P)
    (hP : ∀ o, P o → Answers b i o) (hu : Underway env b s)
    (h : Runs (some <$> x) env s r s') : Computes env b i s r s' := by
  obtain ⟨id, rfl, hrun⟩ := some_map h
  obtain ⟨ht, hid⟩ := hx hu hrun
  refine ⟨ht, fun _ heq => ?_⟩
  cases heq
  exact hid.imp hP

/-- The code of every instruction but a phi is tidy. -/
theorem selectInst_tidily {k : InstId} (hphi : i.opcode ≠ .phi) (hu : Underway env b s)
    (h : Runs (selectInst k i) env s r s') :
    ∃ ts, Tidily env b s ts s' ∧ Leaves s' i ts ∧
      ∀ id ∈ r, s'.Stands id (Answers b i) := by
  have hcomputes : i.opcode.isTerminator = false → Computes env b i s r s' →
      ∃ ts, Tidily env b s ts s' ∧ Leaves s' i ts ∧
      ∀ id ∈ r, s'.Stands id (Answers b i) :=
    fun hstays hc => ⟨[], hc.tidily, .stays hstays, hc.result⟩
  have hproduces : ∀ {x : LowerM OperandId}, Produces env b s x →
    Runs (some <$> x) env s r s' →
      Computes env b i s r s' := fun hx => .of_some hx (fun _ => Fresh.answers) hu
  unfold selectInst at h
  cases hop : i.opcode with
  | add | sub | mul | and | or | xor =>
    simp only [hop] at h
    exact hcomputes (by rw [hop]; rfl) (hproduces (lowerBinary_tidily rfl (by decide)) h)
  | div | rem =>
    simp only [hop] at h
    exact hcomputes (by rw [hop]; rfl) (hproduces lowerDivision_tidily h)
  | shl | shr =>
    simp only [hop] at h
    exact hcomputes (by rw [hop]; rfl) (hproduces lowerShift_tidily h)
  | cmp predicate =>
    simp only [hop] at h
    exact hcomputes (by rw [hop]; rfl) (hproduces lowerCompare_tidily h)
  | alloca =>
    simp only [hop] at h
    refine hcomputes (by rw [hop]; rfl)
      (.of_some (.adds fun id t hrun => ?_) (fun _ ho => ho) hu h)
    obtain ⟨_, slot, size, align, -, hadds⟩ := lowerAlloca_adds hrun
    exact ⟨_, hadds, fun mb hform => (by cases hform),
      fun _ => .inr ⟨slot, size, align, rfl⟩⟩
  | load =>
    simp only [hop] at h
    exact hcomputes (by rw [hop]; rfl) (hproduces lowerLoad_tidily h)
  | store =>
    simp only [hop] at h
    obtain ⟨rfl, w, hrun⟩ := none_map h
    exact hcomputes (by rw [hop]; rfl) ⟨(lowerStore_tidily hu hrun).1, by simp⟩
  | gep =>
    simp only [hop] at h
    exact hcomputes (by rw [hop]; rfl) (hproduces lowerGep_tidily h)
  | phi => exact absurd hop hphi
  | call =>
    simp only [hop] at h
    obtain ⟨ht, hid⟩ := lowerCall_tidily hu h
    exact hcomputes (by rw [hop]; rfl) ⟨ht,
      fun id heq => (hid id heq).imp fun _ => Fresh.answers⟩
  | trunc =>
    simp only [hop] at h
    exact hcomputes (by rw [hop]; rfl) (hproduces lowerTrunc_tidily h)
  | zext | sext =>
    simp only [hop] at h
    exact hcomputes (by rw [hop]; rfl) (hproduces (lowerExtend_tidily rfl) h)
  | ptrToInt | intToPtr | bitcast =>
    simp only [hop] at h
    exact hcomputes (by rw [hop]; rfl) (.of_some lowerReinterpret_tidily
      (fun _ ho => ⟨ho, fun hcast => by rw [hop] at hcast; cases hcast⟩) hu h)
  | br =>
    simp only [hop] at h
    obtain ⟨rfl, w, hrun⟩ := none_map h
    obtain ⟨ts, ht, hleaves⟩ := lowerBr_tidily hop hu hrun
    exact ⟨ts, ht, hleaves, by simp⟩
  | condBr =>
    simp only [hop] at h
    obtain ⟨rfl, w, hrun⟩ := none_map h
    obtain ⟨ts, ht, hleaves⟩ := lowerCondBr_tidily hop hu hrun
    exact ⟨ts, ht, hleaves, by simp⟩
  | ret =>
    simp only [hop] at h
    obtain ⟨rfl, w, hrun⟩ := none_map h
    obtain ⟨ts, ht, hleaves⟩ := lowerRet_tidily hop hu hrun
    exact ⟨ts, ht, hleaves, by simp⟩
  | fadd | fsub | fmul | fdiv | fpToSi | siToFp | fpExt | fpTrunc =>
    simp only [hop] at h
    cases (runs_check.mp h).1

end InstSelect.Lowering
