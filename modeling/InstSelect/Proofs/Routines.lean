import InstSelect.Proofs.Runs

/-!
# What selection is made of

A routine of selection reads its source and the function being built, adds operands of a
few classes, resolves values and writes code, one such step after the other. `Does` says
so: it is a predicate on steps with one case for each elementary step and one for each way
of composing steps. The routines are taken apart once, in this module. Whatever the
elementary steps have, and sequences inherit, then holds of every routine by induction.
-/

namespace InstSelect.Lowering

open IR (ValueId InstId Inst)
open Machine (Storage OperandId Op PhysReg Address Cond)

/-! ## Steps and sequences -/

/-- An instruction all of whose operands are used values. -/
def DrawsOn (env : Env) (used : ValueId → Prop) (id : InstId) : Prop :=
  ∀ i, env.module.inst id = .ok i → ∀ v ∈ i.operands, used v

/--
What selection has to work with: a module and a convention, the values that code names,
the amounts of stack that are reserved for calls, and the classes of storage that operands
may have. These include all that are not floating point.
-/
structure Terms where
  env : Env
  used : ValueId → Prop
  reserves : UInt32 → Prop
  fits : Storage → Prop
  plain : ∀ st : Storage, st.isFloat = false → fits st

/-- No value, no amount and no class is ruled out. -/
def Terms.any (env : Env) : Terms :=
  ⟨env, fun _ => True, fun _ => True, fun _ => True, fun _ _ => trivial⟩

/--
A step that is made of elementary steps of selection, and whose answers have a property.
-/
inductive Does (T : Terms) : {α : Type} → LowerM α → (α → Prop) → Prop
  | pure {α : Type} {a : α} {Q : α → Prop} (answer : Q a) : Does T (pure a) Q
  | bind {α β : Type} {x : LowerM α} {k : α → LowerM β} {Q : α → Prop} {R : β → Prop}
      (first : Does T x Q) (rest : ∀ a, Q a → Does T (k a) R) : Does T (x >>= k) R
  | map {α β : Type} {x : LowerM α} {Q : α → Prop} (f : α → β) (first : Does T x Q) :
      Does T (f <$> x) fun _ => True
  | check {α : Type} (e : Except Failure α) : Does T (check e) fun a => e = .ok a
  | refuse {α : Type} {f : Failure} {Q : α → Prop} : Does T (check (.error f)) Q
  | violateIn {α : Type} {broken : String → Violation} {Q : α → Prop} :
      Does T (violateIn broken) Q
  | sourceModule : Does T sourceModule fun m => T.env.module = m
  | theAbi : Does T theAbi fun _ => True
  | machine : Does T machine fun f => T.fits f.ret
  | operand (id : OperandId) : Does T (operand id) fun o => T.fits o.storage
  | regOf (id : OperandId) : Does T (regOf id) fun _ => True
  | lookupValue (v : ValueId) : Does T (lookupValue v) fun _ => True
  | predecessorBlock (phi pred : ValueId) : Does T (predecessorBlock phi pred) fun _ =>
    True
  | newVReg {st : Storage} (class_fits : T.fits st) : Does T (newVReg st) fun _ => True
  | physReg {reg : PhysReg} {st : Storage} (class_fits : T.fits st) :
      Does T (physReg reg st) fun _ => True
  | imm {n : Int64} {st : Storage} (class_fits : T.fits st) : Does T (imm n st) fun _ =>
    True
  | mem {a : Address} {st : Storage} (class_fits : T.fits st) : Does T (mem a st) fun _ =>
    True
  | newSlot (size : UInt64) (align : UInt32) : Does T (newSlot size align) fun _ => True
  | emit (op : Op) (ids : List OperandId) : Does T (emit op ids) fun _ => True
  | insert (b : Machine.BlockId) (op : Op) (ids : List OperandId) :
      Does T (change (·.insertBeforeTerminator b op ids)) fun _ => True
  | reserve {bytes : UInt32} (allowed : T.reserves bytes) :
      Does T (change fun f => pure (f.reserveCallStack bytes)) fun _ => True
  | resolve {v : ValueId} (used : T.used v) : Does T (resolve v) fun _ => True
  | lowerPhi {id : InstId} (i : Inst) (draws : DrawsOn T.env T.used id) :
      Does T (lowerPhi id i) fun _ => True

/-- A step that is made of elementary steps, whatever it answers. -/
abbrev Routine (T : Terms) {α : Type} (x : LowerM α) : Prop := Does T x fun _ => True

variable {T : Terms} {α β : Type} {st : Storage} {v index : ValueId} {i : Inst}
  {ty : IR.Ty} {role : String} {args : List ValueId} {sts : List Storage} {id : InstId}

namespace Does

variable {x : LowerM α} {Q : α → Prop}

theorem done (a : α) : Routine T (Pure.pure a : LowerM α) := pure trivial

theorem checkWord (e : Except Overflow α) : Does T (checkWord e) fun a =>
    Failure.ofWord e = .ok a := check _

theorem ite {c : Prop} [Decidable c] {y : LowerM α} (hx : c → Does T x Q)
    (hy : ¬ c → Does T y Q) :
    Does T (if c then x else y) Q := by
  split
  · next h => exact hx h
  · next h => exact hy h

theorem forM {f : α → LowerM Unit} {xs : List α} (hf : ∀ a ∈ xs, Routine T (f a)) :
    Routine T (xs.forM f) := by
  induction xs with
  | nil => exact done _
  | cons a xs ih =>
    rw [List.forall_mem_cons] at hf
    exact hf.1.bind fun _ _ => ih hf.2

theorem mapM {f : α → LowerM β} {xs : List α} (hf : ∀ a ∈ xs, Routine T (f a)) :
    Routine T (xs.mapM f) := by
  induction xs with
  | nil =>
    rw [List.mapM_nil]
    exact done _
  | cons a xs ih =>
    rw [List.forall_mem_cons] at hf
    rw [List.mapM_cons]
    exact hf.1.bind fun _ _ => (ih hf.2).bind fun _ _ => done _

theorem foldlM {f : β → α → LowerM β} {xs : List α}
    (hf : ∀ b, ∀ a ∈ xs, Routine T (f b a)) (b : β) :
    Routine T (xs.foldlM f b) := by
  induction xs generalizing b with
  | nil =>
    rw [List.foldlM_nil]
    exact done _
  | cons a xs ih =>
    rw [List.foldlM_cons]
    exact (hf b a List.mem_cons_self).bind fun c _ =>
      ih (fun b a ha => hf b a (List.mem_cons_of_mem _ ha)) c

theorem filterM {f : α → LowerM Bool} (hf : ∀ a, Routine T (f a)) (xs : List α) :
    Routine T (xs.filterM f) := by
  have haux : ∀ acc, Routine T (xs.filterAuxM f acc) := by
    induction xs with
    | nil => exact fun acc => done acc
    | cons a xs ih => exact fun acc => (hf a).bind fun _ _ => ih _
  exact (haux []).bind fun _ _ => done _

/-- A register that is numbered and filled by one instruction. -/
theorem fill (hst : T.fits st) (op : Op) (ids : OperandId → List OperandId) :
    Routine T (do
      let dst ← Lowering.newVReg st
      Lowering.emit op (ids dst)
      Pure.pure dst) :=
  (newVReg hst).bind fun _ _ => (emit _ _).bind fun _ _ => done _

end Does

/-! ## Classes of storage -/

theorem isFloat_of_scalarStorage (h : scalarStorage ty role = .ok st) :
    st.isFloat = false := by
  obtain ⟨st', -, hst⟩ := bind_eq_ok.mp h
  cases hfloat : st'.isFloat with
  | true => simp [hfloat] at hst
  | false =>
    rw [hfloat] at hst
    cases hst
    exact hfloat

theorem scalarStorage_of_byValueStorage (h : byValueStorage ty role = .ok st) :
    scalarStorage ty role = .ok st := by
  obtain ⟨st', hst', hrest⟩ := bind_eq_ok.mp h
  split at hrest
  · obtain ⟨size, -, hrest⟩ := bind_eq_ok.mp hrest
    split at hrest
    · cases hrest
      exact hst'
    · cases hrest
  · cases hrest
    exact hst'

namespace Terms

variable {ty : IR.Ty} {role : String} {st : Storage}

theorem scalar (T : Terms) (h : scalarStorage ty role = .ok st) : T.fits st :=
  T.plain st (isFloat_of_scalarStorage h)

theorem byValue (T : Terms) (h : byValueStorage ty role = .ok st) : T.fits st :=
  T.scalar (scalarStorage_of_byValueStorage h)

theorem work (T : Terms) (h : T.fits st) : T.fits (workStorage st) := by
  unfold workStorage
  split
  · exact T.plain _ rfl
  · exact h

theorem arguments (T : Terms) {m : IR.Module} (h : argumentStorages m args = .ok sts) :
    ∀ st ∈ sts, T.fits st := by
  unfold argumentStorages at h
  induction args generalizing sts with
  | nil =>
    obtain rfl := pure_eq_ok.mp h
    exact nofun
  | cons arg args ih =>
    rw [List.mapM_cons] at h
    obtain ⟨st, hst, h⟩ := bind_eq_ok.mp h
    obtain ⟨rest, hrest, h⟩ := bind_eq_ok.mp h
    obtain rfl := pure_eq_ok.mp h
    obtain ⟨ty, -, hst⟩ := bind_eq_ok.mp hst
    exact List.forall_mem_cons.mpr ⟨T.byValue hst, ih hrest⟩

end Terms

/-! ## Operands of values -/

theorem storage_routine (id : OperandId) : Does T (storage id) T.fits :=
  (Does.operand id).bind fun _ ho => .pure ho

theorem materialize_routine (dst src : OperandId) : Routine T (materialize dst src) :=
  ((Does.operand src).bind fun _ _ => .done _).bind fun _ _ => .emit _ _

theorem copyToVReg_routine (src : OperandId) : Routine T (copyToVReg src) := by
  refine (Does.operand src).bind fun o ho => ?_
  have hst : T.fits (if o.needsAddress then .ptr else o.storage) := by
    split
    · exact T.plain _ rfl
    · exact ho
  exact (Does.newVReg hst).bind fun _ _ =>
    (materialize_routine _ _).bind fun _ _ => .done _

theorem intoRegister_routine (id : OperandId) : Routine T (intoRegister id) :=
  (Does.operand id).bind fun _ _ => .ite (fun _ => .done _) fun _ => copyToVReg_routine _

theorem valueOperand_routine (hv : T.used v) : Routine T (valueOperand v) :=
  (Does.resolve hv).bind fun _ _ => (Does.operand _).bind fun _ _ =>
    .ite (fun _ => .fill (T.plain _ rfl) _ fun dst => [dst, _]) fun _ => .done _

theorem addressRegister_routine (hv : T.used v) : Routine T (addressRegister v) :=
  (valueOperand_routine hv).bind fun _ _ => intoRegister_routine _

theorem aluSource_routine (id : OperandId) : Routine T (aluSource id) :=
  (Does.operand id).bind fun _ _ => .ite (fun _ => copyToVReg_routine _) fun _ => .done _

/-! ## Shadow slots -/

theorem shadowSlot_routine (index : Nat) (hst : T.fits st) :
    Routine T (shadowSlot index st) :=
  Does.theAbi.bind fun _ _ => (Does.checkWord _).bind fun _ _ => .mem hst

theorem argsIn_routine (regs : List PhysReg) : Routine T (argsIn regs) := by
  refine Does.machine.bind fun _ _ =>
    .filterM (fun arg => (Does.operand _).bind fun o _ => ?_) _
  cases o.physReg? with
  | some reg => exact .done _
  | none => exact .done _

theorem saveArg_routine (arg : OperandId × Nat) : Routine T (saveArg arg) :=
  (storage_routine _).bind fun _ hst => (shadowSlot_routine _ hst).bind fun _ _ =>
    (Does.emit _ _).bind fun _ _ => .done _

theorem preserving_routine {body : LowerM α} (regs : List PhysReg)
    (hbody : Routine T body) :
    Routine T (preserving regs body) :=
  (argsIn_routine regs).bind fun _ _ =>
    (Does.mapM fun _ _ => saveArg_routine _).bind fun _ _ =>
    hbody.bind fun _ _ => (Does.forM fun _ _ => .emit _ _).bind fun _ _ => .done _

/-! ## Integer instructions -/

theorem isSigned_routine (v : ValueId) : Routine T (isSigned v) :=
  Does.sourceModule.bind fun _ _ => (Does.check _).bind fun _ _ => .done _

theorem binarySource_routine (op : Op) (id : OperandId) :
    Routine T (binarySource op id) :=
  .ite (fun _ => (Does.operand id).bind fun _ _ =>
    .ite (fun _ => .done _) fun _ => copyToVReg_routine _) fun _ => aluSource_routine _

theorem shiftByRegister_routine (op : Op) (dst amount : OperandId) :
    Routine T (shiftByRegister op dst amount) :=
  (storage_routine _).bind fun _ hst => preserving_routine _ <|
    (Does.physReg hst).bind fun _ _ => (Does.emit _ _).bind fun _ _ =>
    (Does.physReg (T.plain _ rfl)).bind fun _ _ => .emit _ _

theorem orderOperands_routine (cond : Cond) (lhs rhs : OperandId) :
    Routine T (orderOperands cond lhs rhs) := by
  refine (Does.operand lhs).bind fun left _ => (Does.operand rhs).bind fun right _ => ?_
  cases left.isImm with
  | false => exact .done _
  | true =>
    cases right.isImm with
    | false => exact .done _
    | true => exact (copyToVReg_routine _).bind fun _ _ => .done _

theorem compareSource_routine (lhs rhs : OperandId) : Routine T (compareSource lhs rhs) :=
  (Does.operand lhs).bind fun _ _ => (Does.operand rhs).bind fun _ _ =>
    .ite (fun _ => copyToVReg_routine _) fun _ => .done _

theorem widen_routine (id : OperandId) {target : Storage} (signed : Bool)
    (hst : T.fits target) :
    Routine T (widen id target signed) := by
  refine (Does.operand id).bind fun o _ => ?_
  cases o.imm? with
  | some value => exact .imm hst
  | none => exact .fill hst _ fun dst => [dst, _]

theorem divisorOperand_routine (id : OperandId) : Routine T (divisorOperand id) := by
  refine (Does.operand id).bind fun o _ => ?_
  cases o.form with
  | virt | mem => exact .done _
  | _ => exact copyToVReg_routine _

theorem dividePair_routine {work : Storage} (signed remainder : Bool)
    (lhs rhs : OperandId)
    (hst : T.fits work) : Routine T (dividePair work signed remainder lhs rhs) := by
  refine (Does.physReg hst).bind fun _ _ => (Does.physReg hst).bind fun _ _ =>
    (Does.emit _ _).bind fun _ _ => ?_
  exact .ite
    (fun _ => (Does.check _).bind fun _ _ => (Does.emit _ _).bind fun _ _ =>
      (Does.emit _ _).bind fun _ _ =>
        .fill hst _ fun dst => [dst, _])
    fun _ => (Does.emit _ _).bind fun _ _ => (Does.emit _ _).bind fun _ _ =>
      .fill hst _ fun dst => [dst, _]

/-! ## Memory and element addresses -/

theorem allocaCount_routine (i : Inst) : Routine T (allocaCount i) := by
  unfold allocaCount
  split
  · exact .done _
  · refine Does.sourceModule.bind fun _ _ => (Does.check _).bind fun found _ => ?_
    cases found with
    | some n => exact .done _
    | none => exact .refuse
  · exact .refuse

theorem memoryAt_routine (base : OperandId) (hst : T.fits st) :
    Routine T (memoryAt base st) :=
  (Does.regOf _).bind fun _ _ => .mem hst

theorem memoryOperand_routine (address : Partial) (index : Option (OperandId × UInt8)) :
    Routine T (memoryOperand address index) := by
  refine (Does.regOf _).bind fun _ _ => ?_
  cases index with
  | none => exact .mem (T.plain _ rfl)
  | some index =>
    exact (storage_routine _).bind fun _ _ => (Does.check _).bind fun _ _ =>
      (Does.regOf _).bind fun _ _ => (Does.check _).bind fun _ _ => .mem (T.plain _ rfl)

theorem loadAddress_routine (address : Partial) (index : Option (OperandId × UInt8)) :
    Routine T (loadAddress address index) :=
  (Does.newVReg (T.plain _ rfl)).bind fun _ _ =>
    (memoryOperand_routine _ _).bind fun _ _ =>
    (Does.emit _ _).bind fun _ _ => .done _

theorem addOffset_routine (address : Partial) (offset : Int64) :
    Routine T (addOffset address offset) := by
  refine (Does.checkWord _).bind fun total _ => ?_
  split
  · exact .done _
  · have hflush : Routine T (flush address) :=
      .ite (fun _ => .done _) fun _ => loadAddress_routine _ _
    refine hflush.bind fun _ _ => ?_
    split
    · exact .done _
    · exact (Does.imm (T.plain _ rfl)).bind fun _ _ =>
        (copyToVReg_routine _).bind fun _ _ =>
        (loadAddress_routine _ _).bind fun _ _ => .done _

theorem indexRegister_routine (hv : T.used v) : Routine T (indexRegister v) :=
  (isSigned_routine _).bind fun _ _ => (valueOperand_routine hv).bind fun _ _ =>
    (intoRegister_routine _).bind fun _ _ => (storage_routine _).bind fun _ _ =>
    .ite (fun _ => .done _) fun _ => .fill (T.plain _ rfl) _ fun dst => [dst, _]

theorem addScaledIndex_routine (address : Partial) (size : UInt64) (hv : T.used index) :
    Routine T (addScaledIndex address index size) := by
  refine (indexRegister_routine hv).bind fun _ _ => ?_
  split
  · exact (loadAddress_routine _ _).bind fun _ _ => .done _
  · exact (Does.newVReg (T.plain _ rfl)).bind fun _ _ => (Does.emit _ _).bind fun _ _ =>
      (Does.imm (T.plain _ rfl)).bind fun _ _ => (copyToVReg_routine _).bind fun _ _ =>
      (Does.emit _ _).bind fun _ _ => (Does.newVReg (T.plain _ rfl)).bind fun _ _ =>
      (Does.emit _ _).bind fun _ _ => (Does.emit _ _).bind fun _ _ => .done _

theorem stepElement_routine (gep : ValueId) (address : Partial) (element : IR.Ty)
    (hv : T.used index) :
    Routine T (stepElement gep address element index) := by
  refine (Does.checkWord _).bind fun _ _ => Does.sourceModule.bind fun _ _ =>
    (Does.check _).bind fun found _ => ?_
  cases found with
  | some step => exact (Does.check _).bind fun _ _ => addOffset_routine _ _
  | none => exact addScaledIndex_routine _ _ hv

theorem stepInto_routine (gep : ValueId) (address : Partial) (ty : IR.Ty)
    (hv : T.used index) :
    Routine T (stepInto gep address ty index) := by
  unfold stepInto
  split
  · refine Does.sourceModule.bind fun _ _ => (Does.check _).bind fun found _ => ?_
    cases found with
    | none => exact .refuse
    | some field =>
      exact (Does.check _).bind fun _ _ => (Does.checkWord _).bind fun _ _ =>
        (addOffset_routine _ _).bind fun _ _ => .done _
  · exact (stepElement_routine _ _ _ hv).bind fun _ _ => .done _
  · exact (stepElement_routine _ _ _ hv).bind fun _ _ => .done _
  · exact .refuse

theorem walk_routine (gep : ValueId) {indices : List ValueId} (address : Partial)
    (ty : IR.Ty)
    (hv : ∀ v ∈ indices, T.used v) : Routine T (walk gep indices address ty) := by
  induction indices generalizing address ty with
  | nil => exact .done _
  | cons index rest ih =>
    rw [List.forall_mem_cons] at hv
    exact (stepInto_routine _ _ _ hv.1).bind fun _ _ => ih _ _ hv.2

/-! ## Calls -/

theorem callTarget_routine {callee : ValueId} (hv : T.used callee) :
    Routine T (callTarget callee) := by
  refine (Does.resolve hv).bind fun _ _ => (Does.operand _).bind fun o _ => ?_
  cases o.form with
  | symbol | virt | mem => exact .done _
  | _ => exact copyToVReg_routine _

theorem bindArgument_routine {arg : ValueId} (reg : PhysReg) (hv : T.used arg)
    (hst : T.fits st) :
    Routine T (bindArgument arg st reg) := by
  refine (Does.resolve hv).bind fun _ _ =>
    (Does.machine.bind fun _ _ => .done _).bind fun found _ => ?_
  have hmove : ∀ source, Routine T (do
      let dst ← physReg reg st
      materialize dst source) :=
        fun _ => (Does.physReg hst).bind fun _ _ => materialize_routine _ _
  cases found with
  | some home => exact (shadowSlot_routine _ hst).bind fun _ _ => hmove _
  | none => exact hmove _

theorem bindArguments_routine (regs : List PhysReg) (hv : ∀ v ∈ args, T.used v)
    (hst : ∀ st ∈ sts, T.fits st) : Routine T (bindArguments args sts regs) := by
  induction args generalizing sts regs with
  | nil => exact .done _
  | cons arg args ih =>
    rw [List.forall_mem_cons] at hv
    cases sts with
    | nil => exact .done _
    | cons st sts =>
      rw [List.forall_mem_cons] at hst
      cases regs with
      | nil => exact .done _
      | cons reg regs =>
        exact (bindArgument_routine _ hv.1 hst.1).bind fun _ _ => ih _ hv.2 hst.2

theorem callResult_routine (hst : T.fits st) : Routine T (callResult st) :=
  .ite (fun _ => .done _) fun _ => Does.theAbi.bind fun _ _ =>
    (Does.physReg hst).bind fun _ _ =>
    (Does.newVReg hst).bind fun _ _ => (Does.emit _ _).bind fun _ _ => .done _

/-! ## Copies of phis -/

theorem mem_of_phiIncoming {pairs : List (ValueId × ValueId)}
    (h : i.phiIncoming = .ok pairs) :
    ∀ p ∈ pairs, p.1 ∈ i.operands := by
  have hpairs : ∀ (ops : List ValueId) (ps : List (ValueId × ValueId)),
    IR.pairs? ops = some ps →
      ∀ p ∈ ps, p.1 ∈ ops := by
    intro ops
    fun_induction IR.pairs? ops with
    | case1 => simp
    | case2 => simp
    | case3 a b rest ih =>
      intro ps hps p hp
      obtain ⟨qs, hqs, rfl⟩ := Option.map_eq_some_iff.mp hps
      rcases List.mem_cons.mp hp with rfl | hp
      · simp
      · simp [ih qs hqs p hp]
  unfold IR.Inst.phiIncoming at h
  split at h
  · next hops =>
    cases h
    exact hpairs _ _ hops
  · exact absurd h violate_ne_ok

theorem collectPhi_routine (edges : List EdgeCopies) (hid : DrawsOn T.env T.used id) :
    Routine T (collectPhi edges id) := by
  refine Does.sourceModule.bind fun m hm => (Does.check _).bind fun i hi =>
    (Does.lookupValue _).bind fun found _ => ?_
  subst hm
  cases found with
  | none => exact .refuse
  | some dst =>
    exact (Does.check _).bind fun _ hpairs => .foldlM (fun _ p hp =>
      (Does.predecessorBlock _ _).bind fun _ _ =>
      (Does.resolve (hid i hi _ (mem_of_phiIncoming hpairs p hp))).bind fun _ _ =>
        .done _) _

theorem insertCopy_routine (block : Machine.BlockId) (copy : Copy) :
    Routine T (insertCopy block copy) :=
  ((Does.operand copy.src).bind fun _ _ => .done _).bind fun _ _ => .insert _ _ _

theorem stageCopy_routine (block : Machine.BlockId) (copy : Copy) :
    Routine T (stageCopy block copy) :=
  (storage_routine _).bind fun _ hst => (Does.newVReg hst).bind fun _ _ =>
    (insertCopy_routine _ _).bind fun _ _ => .done _

theorem placeCopies_routine (edge : EdgeCopies) : Routine T (placeCopies edge) :=
  .ite
    (fun _ => (Does.mapM fun _ _ => stageCopy_routine _ _).bind fun _ _ =>
      .forM fun _ _ => insertCopy_routine _ _)
    fun _ => .forM fun _ _ => insertCopy_routine _ _

/-! ## Instructions -/

theorem mem_of_binaryOperands {p : ValueId × ValueId} (h : binaryOperands i = .ok p) :
    p.1 ∈ i.operands ∧ p.2 ∈ i.operands := by
  unfold binaryOperands at h
  split at h
  · next hops =>
    cases h
    simp [hops]
  · exact absurd h violate_ne_ok

theorem mem_of_unaryOperand {x : ValueId} (h : unaryOperand i = .ok x) :
    x ∈ i.operands := by
  unfold unaryOperand at h
  split at h
  · next hops =>
    cases h
    simp [hops]
  · exact absurd h violate_ne_ok

section Instructions

variable {i : Inst} (hi : ∀ v ∈ i.operands, T.used v)

theorem lowerAlloca_routine : Routine T (lowerAlloca i) := by
  unfold lowerAlloca
  split
  · exact .refuse
  · exact (allocaCount_routine _).bind fun _ _ => (Does.check _).bind fun _ _ =>
      (Does.checkWord _).bind fun _ _ => .newSlot _ _

include hi

theorem lowerBinary_routine (op : Op) : Routine T (lowerBinary op i) :=
  (Does.check _).bind fun _ hst => (Does.check _).bind fun _ hops =>
    have hmem := mem_of_binaryOperands hops
    (Does.resolve (hi _ hmem.1)).bind fun _ _ =>
      (valueOperand_routine (hi _ hmem.2)).bind fun _ _ =>
    (Does.newVReg (T.scalar hst)).bind fun _ _ =>
      (materialize_routine _ _).bind fun _ _ =>
    (binarySource_routine _ _).bind fun _ _ => (Does.emit _ _).bind fun _ _ => .done _

theorem lowerShift_routine (right : Bool) : Routine T (lowerShift right i) := by
  refine (Does.check _).bind fun _ hst => (Does.check _).bind fun _ hops => ?_
  have hmem := mem_of_binaryOperands hops
  refine (isSigned_routine _).bind fun _ _ => (Does.resolve (hi _ hmem.1)).bind fun _ _ =>
    (Does.newVReg (T.scalar hst)).bind fun _ _ =>
      (materialize_routine _ _).bind fun _ _ =>
    (valueOperand_routine (hi _ hmem.2)).bind fun _ _ =>
      (Does.operand _).bind fun o _ => ?_
  cases o.imm? with
  | some count =>
    exact (Does.imm (T.plain _ rfl)).bind fun _ _ =>
      (Does.emit _ _).bind fun _ _ => .done _
  | none => exact (shiftByRegister_routine _ _ _).bind fun _ _ => .done _

theorem lowerCompare_routine (p : IR.Predicate) : Routine T (lowerCompare p i) :=
  (Does.check _).bind fun _ hops =>
    have hmem := mem_of_binaryOperands hops
    Does.sourceModule.bind fun _ _ => (Does.check _).bind fun _ _ =>
      (Does.check _).bind fun _ _ =>
    (valueOperand_routine (hi _ hmem.1)).bind fun _ _ =>
      (valueOperand_routine (hi _ hmem.2)).bind fun _ _ =>
    (orderOperands_routine _ _ _).bind fun _ _ =>
      (compareSource_routine _ _).bind fun _ _ =>
    (aluSource_routine _).bind fun _ _ => (Does.emit _ _).bind fun _ _ =>
      .fill (T.plain _ rfl) _ fun dst => [dst]

theorem lowerTrunc_routine : Routine T (lowerTrunc i) := by
  refine (Does.check _).bind fun target hst => (Does.check _).bind fun _ hops =>
    (valueOperand_routine (hi _ (mem_of_unaryOperand hops))).bind fun _ _ =>
    (Does.operand _).bind fun o _ => (Does.check _).bind fun _ _ => ?_
  have hrest := fun source => Does.fill (T.scalar hst) .mov fun dst => [dst, source]
  cases o.imm? with
  | some value => exact (Does.imm (T.scalar hst)).bind fun _ _ => hrest _
  | none => exact hrest _

theorem lowerExtend_routine (op : Op) : Routine T (lowerExtend op i) := by
  refine (Does.check _).bind fun target hst => (Does.check _).bind fun _ hops =>
    (valueOperand_routine (hi _ (mem_of_unaryOperand hops))).bind fun _ _ =>
    (Does.operand _).bind fun o _ => (Does.check _).bind fun _ _ => ?_
  have hrest := fun source => Does.fill (T.scalar hst) op fun dst => [dst, source]
  exact .ite (fun _ => (copyToVReg_routine _).bind fun _ _ => hrest _) fun _ => hrest _

theorem lowerReinterpret_routine : Routine T (lowerReinterpret i) :=
  (Does.check _).bind fun _ _ => (Does.check _).bind fun _ hops =>
    (Does.resolve (hi _ (mem_of_unaryOperand hops))).bind fun _ _ =>
      intoRegister_routine _

theorem lowerDivision_routine (remainder : Bool) :
    Routine T (lowerDivision remainder i) := by
  refine (Does.check _).bind fun storage hst => (Does.check _).bind fun _ hops => ?_
  have hmem := mem_of_binaryOperands hops
  have hwork := T.work (T.scalar hst)
  refine (isSigned_routine _).bind fun signed _ =>
    (valueOperand_routine (hi _ hmem.1)).bind fun _ _ =>
    (valueOperand_routine (hi _ hmem.2)).bind fun _ _ => ?_
  have hdivide := fun lhs rhs =>
    preserving_routine [.rax, .rdx] (dividePair_routine signed remainder lhs rhs hwork)
  dsimp only
  split
  · exact (Does.done _).bind fun _ _ => (Does.done _).bind fun _ _ =>
      (divisorOperand_routine _).bind fun _ _ => (hdivide _ _).bind fun _ _ => .done _
  · exact (widen_routine _ _ hwork).bind fun _ _ =>
      (widen_routine _ _ hwork).bind fun _ _ =>
      (divisorOperand_routine _).bind fun _ _ => (hdivide _ _).bind fun _ _ =>
      .fill (T.scalar hst) _ fun dst => [dst, _]

theorem lowerLoad_routine : Routine T (lowerLoad i) :=
  (Does.check _).bind fun _ hst => (Does.check _).bind fun _ hops =>
    (addressRegister_routine (hi _ (mem_of_unaryOperand hops))).bind fun _ _ =>
    (memoryAt_routine _ (T.byValue hst)).bind fun _ _ =>
      .fill (T.byValue hst) _ fun dst => [dst, _]

theorem lowerStore_routine : Routine T (lowerStore i) :=
  (Does.check _).bind fun _ hops =>
    have hmem := mem_of_binaryOperands hops
    Does.sourceModule.bind fun _ _ => (Does.check _).bind fun _ _ =>
      (Does.check _).bind fun _ hst =>
    (valueOperand_routine (hi _ hmem.1)).bind fun _ _ =>
      (aluSource_routine _).bind fun _ _ =>
    (addressRegister_routine (hi _ hmem.2)).bind fun _ _ =>
    (memoryAt_routine _ (T.byValue hst)).bind fun _ _ => .emit _ _

theorem lowerGep_routine : Routine T (lowerGep i) := by
  unfold lowerGep
  split
  · exact .refuse
  · next base indices hops =>
    rw [hops, List.forall_mem_cons] at hi
    exact (addressRegister_routine hi.1).bind fun _ _ => Does.sourceModule.bind fun _ _ =>
      (Does.check _).bind fun _ _ => (walk_routine _ _ _ hi.2).bind fun _ _ =>
        loadAddress_routine _ _

theorem lowerCall_routine (hreserve : ∀ bytes, T.reserves bytes) :
    Routine T (lowerCall i) := by
  refine Does.theAbi.bind fun abi _ => ?_
  split
  · exact .refuse
  · next callee args hops =>
    rw [hops, List.forall_mem_cons] at hi
    exact .ite (fun _ => .refuse) fun _ => Does.sourceModule.bind fun _ _ =>
      (Does.check _).bind fun _ hsts => (Does.check _).bind fun _ hret =>
      (callTarget_routine hi.1).bind fun _ _ => (Does.checkWord _).bind fun _ _ =>
      (Does.reserve (hreserve _)).bind fun _ _ => preserving_routine _ <|
      (bindArguments_routine _ hi.2 (T.arguments hsts)).bind fun _ _ =>
        (Does.emit _ _).bind fun _ _ =>
      callResult_routine (T.byValue hret)

theorem lowerBr_routine : Routine T (lowerBr i) :=
  (Does.check _).bind fun _ hops =>
    (Does.resolve (hi _ (mem_of_unaryOperand hops))).bind fun _ _ => .emit _ _

theorem lowerCondBr_routine : Routine T (lowerCondBr i) := by
  unfold lowerCondBr
  split
  · next condition ifTrue ifFalse hops =>
    have hused : ∀ v ∈ [condition, ifTrue, ifFalse], T.used v := hops ▸ hi
    exact (valueOperand_routine (hused _ (by simp))).bind fun _ _ =>
      (intoRegister_routine _).bind fun _ _ =>
      (Does.resolve (hused _ (by simp))).bind fun _ _ =>
      (Does.resolve (hused _ (by simp))).bind fun _ _ => (Does.emit _ _).bind fun _ _ =>
      (Does.emit _ _).bind fun _ _ => .emit _ _
  · exact .refuse

theorem lowerRet_routine : Routine T (lowerRet i) := by
  refine Does.machine.bind fun f hf => ?_
  split
  · exact .emit _ _
  · next value hops =>
    exact (Does.check _).bind fun _ _ =>
      (Does.resolve (hi _ (by simp [hops]))).bind fun _ _ =>
      Does.theAbi.bind fun _ _ => (Does.physReg hf).bind fun _ _ =>
      (materialize_routine _ _).bind fun _ _ => .emit _ _
  · exact (Does.check _).bind fun _ _ => .emit _ _

theorem selectInst_routine (hid : DrawsOn T.env T.used id)
    (hcall : i.opcode = .call → ∀ bytes, T.reserves bytes) :
    Routine T (selectInst id i) := by
  unfold selectInst
  cases hop : i.opcode with
  | add | sub | mul | and | or | xor => exact .map _ (lowerBinary_routine hi _)
  | div | rem => exact .map _ (lowerDivision_routine hi _)
  | shl | shr => exact .map _ (lowerShift_routine hi _)
  | cmp predicate => exact .map _ (lowerCompare_routine hi _)
  | alloca => exact .map _ lowerAlloca_routine
  | load => exact .map _ (lowerLoad_routine hi)
  | store => exact .map _ (lowerStore_routine hi)
  | gep => exact .map _ (lowerGep_routine hi)
  | phi => exact .map _ (.lowerPhi _ hid)
  | call => exact lowerCall_routine hi (hcall hop)
  | trunc => exact .map _ (lowerTrunc_routine hi)
  | zext | sext => exact .map _ (lowerExtend_routine hi _)
  | ptrToInt | intToPtr | bitcast => exact .map _ (lowerReinterpret_routine hi)
  | br => exact .map _ (lowerBr_routine hi)
  | condBr => exact .map _ (lowerCondBr_routine hi)
  | ret => exact .map _ (lowerRet_routine hi)
  | fadd | fsub | fmul | fdiv | fpToSi | siToFp | fpExt | fpTrunc => exact .refuse

end Instructions

end InstSelect.Lowering
