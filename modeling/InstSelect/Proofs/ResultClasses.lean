import InstSelect.Proofs.ArenaContents
import InstSelect.Proofs.Assembly

/-!
# Storage classes of results

Most instructions put their result into a virtual register that is numbered for it, of the
class of the instruction's type; an `alloca` answers with a slot, which stands for its
address. The class of an operand is fixed when it enters the arena, so whatever selection
does afterwards, the answer keeps its class. Casts that only change how bits are viewed
are the exception: they answer with the operand they are given, or with a copy of it.
-/

namespace InstSelect.IR

/-- An instruction whose type is one that its opcode can have. -/
structure Inst.Typed (i : Inst) : Prop where
  cmp : ∀ p, i.opcode = .cmp p → i.ty = .bool
  gep : i.opcode = .gep → ∃ ty, i.ty = .ptr ty

end InstSelect.IR

namespace InstSelect.Lowering

open IR (ValueId InstId Inst)
open Machine (Storage Operand OperandId Op)

variable {env : Env} {s s' t : State} {id : OperandId} {P Q : Operand → Prop}
  {k : OperandId → LowerM OperandId}

/-! ## What an id stands for -/

theorem bears_stands (form : Machine.Form) (st : Storage) :
    Bears (·.Stands id P) form st := by
  intro s c hc hs
  refine hs.of_operands hc rfl ?_
  show _ <+: (c.machine.operands.push ⟨form, st⟩).toList
  rw [Array.toList_push]
  exact List.prefix_append _ _

theorem indifferent_stands (id : OperandId) (P : Operand → Prop) :
    Indifferent env (fun _ => True) (·.Stands id P) where
  plain _ _ _ _ := bears_stands _ _
  alike _ _ _ _ _ _ _ _ := bears_stands _ _
  result _ _ _ _ _ _ := bears_stands _ _
  constant _ _ _ _ _ _ _ _ _ := bears_stands _ _
  function _ _ _ _ _ := bears_stands _ _
  global _ _ _ := bears_stands _ _
  code s c f hc _ hops _ _ hs := hs.of_operands hc rfl (hops ▸ List.prefix_refl _)
  values _ _ _ _ hs := hs.of_current rfl
  blocks _ _ hs := hs.of_current rfl
  insertion s b hs := by
    cases hc : s.current with
    | none => exact hs.of_current (by simp [hc])
    | some c => exact hs.of_operands hc rfl (List.prefix_refl _)
  pending _ _ _ hs := hs.of_current rfl
  drawn _ _ _ _ _ _ _ _ := trivial

/-- What an id stands for never changes. -/
theorem Durable.stands (id : OperandId) (P : Operand → Prop) :
    Durable env (fun _ => True) (·.Stands id P) :=
  (indifferent_stands id P).durable

/-! ## Answers -/

/--
A step that, where an invariant holds, answers with an id that has a property afterwards.
-/
def Gives (env : Env) (I : State → Prop) (x : LowerM OperandId)
    (R : OperandId → State → Prop) : Prop :=
  ∀ s id s', I s → Runs x env s id s' → R id s'

namespace Gives

variable {α : Type} {I : State → Prop} {R S : OperandId → State → Prop}
  {x : LowerM OperandId}

/-- Only the last part of a routine decides what it answers. -/
theorem after {y : LowerM α} {k : α → LowerM OperandId} {A : α → Prop}
    (hy : Upholds env I y A)
    (hk : ∀ a, A a → Gives env I (k a) R) : Gives env I (y >>= k) R := by
  intro s id s' hs hrun
  obtain ⟨a, t, ha, hrest⟩ := runs_bind.mp hrun
  obtain ⟨ht, hA⟩ := hy.ok s a t hs ha
  exact hk a hA t id s' ht hrest

theorem ite {p : Prop} [Decidable p] {y : LowerM OperandId} (hx : p → Gives env I x R)
    (hy : ¬ p → Gives env I y R) : Gives env I (if p then x else y) R := by
  split
  · next h => exact hx h
  · next h => exact hy h

theorem refuse {f : Failure} : Gives env I (check (.error f)) R := by
  intro s id s' _ hrun
  cases (runs_check.mp hrun).1

/-- A routine that goes on after its answer is known. -/
theorem keep (hx : Gives env I x R) (hk : ∀ id, Upholds env (R id) (k id) (· = id)) :
    Gives env I (x >>= k) R := by
  intro s id s' hs hrun
  obtain ⟨a, t, ha, hrest⟩ := runs_bind.mp hrun
  obtain ⟨hR, rfl⟩ := (hk a).ok t id s' (hx s a t hs ha) hrest
  exact hR

theorem imp (hx : Gives env I x R) (h : ∀ id s, R id s → S id s) : Gives env I x S :=
  fun s id s' hs hrun => h id s' (hx s id s' hs hrun)

end Gives

/--
A property of an id and a class of storage that the registers and slots have which are
numbered for an answer, and that is not lost later.
-/
structure Marks (env : Env) (used : ValueId → Prop) (I : State → Prop)
    (M : Storage → OperandId → State → Prop) : Prop where
  before : Durable env used I
  reserve : ∀ bytes, Reserves I bytes
  after : ∀ st id, Durable env used (M st id)
  register : ∀ st, Gives env I (newVReg st) (M st)
  slot : ∀ size align, Gives env I (newSlot size align) (M .ptr)

section Routines

variable {used : ValueId → Prop} {I : State → Prop}
  {M : Storage → OperandId → State → Prop} {i : Inst}
  {st : Storage} (h : Marks env used I M) (hi : ∀ v ∈ i.operands, used v)

/--
The class of a result is that of the instruction's type, if that is one its opcode can
have.
-/
def Marked (M : Storage → OperandId → State → Prop) (i : Inst) (id : OperandId)
    (s : State) : Prop :=
  ∃ st, (i.Typed → storageOf i.ty = .ok st) ∧ M st id s

include h

/-- A routine before the part that decides the answer. -/
theorem Marks.then {α : Type} {y : LowerM α} {k : α → LowerM OperandId} {A : α → Prop}
    {R : OperandId → State → Prop} (hy : Does h.before.terms y A)
    (hk : ∀ a, A a → Gives env I (k a) R) :
    Gives env I (y >>= k) R :=
  .after (h.before.upholds hy) hk

/-- A register that is numbered for the answer, and filled afterwards. -/
theorem Marks.fresh (st : Storage)
    (hk : ∀ id, Does (h.after st id).terms (k id) (· = id)) :
    Gives env I (newVReg st >>= k) (M st) :=
  (h.register st).keep fun id => (h.after st id).upholds (hk id)

/-- Filling a register that was numbered before. -/
theorem Marks.fill (st : Storage) (op : Op) (ids : OperandId → List OperandId) :
    Gives env I (do
      let dst ← newVReg st
      emit op (ids dst)
      pure dst) (M st) :=
  h.fresh st fun _ => .bind (.emit op _) fun _ _ => .pure rfl

theorem Marks.preserving {regs : List Machine.PhysReg} {body : LowerM OperandId}
    (hbody : Gives env I body (M st)) : Gives env I (preserving regs body) (M st) :=
  h.then (argsIn_routine regs) fun _ _ =>
    h.then (.mapM fun _ _ => saveArg_routine _) fun _ _ =>
    hbody.keep fun id =>
      (h.after st id).upholds (.bind (.forM fun _ _ => .emit _ _) fun _ _ => .pure rfl)

theorem dividePair_marks {work : Storage} (signed remainder : Bool) (lhs rhs : OperandId)
    (hst : Suits I work) :
    Gives env I (dividePair work signed remainder lhs rhs) (M work) :=
  h.then (.physReg hst) fun _ _ => h.then (.physReg hst) fun _ _ =>
    h.then (.emit _ _) fun _ _ =>
    .ite (fun _ => h.then (.check _) fun _ _ => h.then (.emit _ _) fun _ _ =>
      h.then (.emit _ _) fun _ _ =>
        h.fill work .mov fun dst => [dst, _])
    fun _ => h.then (.emit _ _) fun _ _ => h.then (.emit _ _) fun _ _ =>
      h.fill work .mov fun dst => [dst, _]

theorem lowerAlloca_marks : Gives env I (lowerAlloca i) (Marked M i) := by
  intro s id s' hs hrun
  obtain ⟨ty, -, -, -, hty, -⟩ := lowerAlloca_adds hrun
  have hslot : Gives env I (lowerAlloca i) (M .ptr) := by
    rw [lowerAlloca, hty]
    exact h.then (allocaCount_routine i) fun _ _ => h.then (.check _) fun _ _ =>
      h.then (.checkWord _) fun _ _ =>
      h.slot _ _
  exact ⟨.ptr, fun _ => by rw [hty]; rfl, hslot s id s' hs hrun⟩

include hi

theorem lowerBinary_marks (op : Op) : Gives env I (lowerBinary op i) (Marked M i) := by
  refine .after (.check _) fun st hst => .after (.check _) fun _ hops => ?_
  have hmem := mem_of_binaryOperands hops
  refine h.then (.resolve (hi _ hmem.1)) fun _ _ =>
    h.then (valueOperand_routine (hi _ hmem.2)) fun _ _ =>
    (h.fresh st fun id => ?_).imp fun _ _ hM =>
      ⟨st, fun _ => storageOf_of_scalarStorage hst, hM⟩
  exact (materialize_routine _ _).bind fun _ _ =>
    (binarySource_routine _ _).bind fun _ _ =>
    .bind (.emit _ _) fun _ _ => .pure rfl

theorem lowerShift_marks (right : Bool) :
    Gives env I (lowerShift right i) (Marked M i) := by
  refine .after (.check _) fun st hst => .after (.check _) fun _ hops => ?_
  have hmem := mem_of_binaryOperands hops
  refine h.then (isSigned_routine _) fun _ _ => h.then (.resolve (hi _ hmem.1)) fun _ _ =>
    (h.fresh st fun id => ?_).imp fun _ _ hM =>
      ⟨st, fun _ => storageOf_of_scalarStorage hst, hM⟩
  refine (materialize_routine _ _).bind fun _ _ =>
    .bind (valueOperand_routine (hi _ hmem.2)) fun _ _ =>
    .bind (.operand _) fun o _ => ?_
  cases o.imm? with
  | some count =>
    exact .bind (.imm (Terms.plain _ _ rfl)) fun _ _ => .bind (.emit _ _) fun _ _ =>
      .pure rfl
  | none => exact (shiftByRegister_routine _ _ _).bind fun _ _ => .pure rfl

theorem lowerCompare_marks {p : IR.Predicate} (hop : i.opcode = .cmp p) :
    Gives env I (lowerCompare p i) (Marked M i) := by
  refine .after (.check _) fun _ hops => ?_
  have hmem := mem_of_binaryOperands hops
  refine .after .sourceModule fun _ _ => .after (.check _) fun _ _ =>
    .after (.check _) fun _ _ =>
    h.then (valueOperand_routine (hi _ hmem.1)) fun _ _ =>
      h.then (valueOperand_routine (hi _ hmem.2)) fun _ _ =>
    h.then (orderOperands_routine _ _ _) fun _ _ =>
      h.then (compareSource_routine _ _) fun _ _ =>
    h.then (aluSource_routine _) fun _ _ => h.then (.emit _ _) fun _ _ =>
    (h.fill .i8 _ fun dst => [dst]).imp fun _ _ hM => ⟨.i8, ?_, hM⟩
  intro htyped
  rw [htyped.cmp p hop]
  rfl

theorem lowerTrunc_marks : Gives env I (lowerTrunc i) (Marked M i) := by
  refine .after (.check _) fun st hst => .after (.check _) fun _ hops => ?_
  have hrest :=
    fun source => (h.fill st .mov fun dst => [dst, source]).imp (S := Marked M i)
    fun _ _ hM => ⟨st, fun _ => storageOf_of_scalarStorage hst, hM⟩
  refine h.then (valueOperand_routine (hi _ (mem_of_unaryOperand hops))) fun _ _ =>
    h.then (.operand _) fun o _ => .after (.check _) fun _ _ => ?_
  cases o.imm? with
  | some value => exact h.then (.imm (Terms.scalar _ hst)) fun _ _ => hrest _
  | none => exact .after (.done _) fun _ _ => hrest _

theorem lowerExtend_marks (op : Op) : Gives env I (lowerExtend op i) (Marked M i) := by
  refine .after (.check _) fun st hst => .after (.check _) fun _ hops => ?_
  have hrest :=
    fun source => (h.fill st op fun dst => [dst, source]).imp (S := Marked M i)
    fun _ _ hM => ⟨st, fun _ => storageOf_of_scalarStorage hst, hM⟩
  refine h.then (valueOperand_routine (hi _ (mem_of_unaryOperand hops))) fun _ _ =>
    h.then (.operand _) fun o _ => .after (.check _) fun _ _ => ?_
  exact .ite (fun _ => h.then (copyToVReg_routine _) fun _ _ => hrest _)
    fun _ => .after (.done _) fun _ _ => hrest _

theorem lowerDivision_marks (remainder : Bool) :
    Gives env I (lowerDivision remainder i) (Marked M i) := by
  refine .after (.check _) fun st hst => .after (.check _) fun _ hops => ?_
  have hmem := mem_of_binaryOperands hops
  have hwork : Suits I (workStorage st) := h.before.terms.work (h.before.terms.scalar hst)
  have hresult : ∀ {x : LowerM OperandId}, Gives env I x (M st) →
      Gives env I x (Marked M i) :=
    fun hx => hx.imp fun _ _ hM => ⟨st, fun _ => storageOf_of_scalarStorage hst, hM⟩
  refine h.then (isSigned_routine _) fun signed _ =>
    h.then (valueOperand_routine (hi _ hmem.1)) fun _ _ =>
    h.then (valueOperand_routine (hi _ hmem.2)) fun _ _ => ?_
  dsimp only
  split
  · next hsame =>
    refine .after (.done _) fun lhs _ => .after (.done _) fun _ _ =>
      h.then (divisorOperand_routine _) fun rhs _ => hresult ?_
    have hdivide :=
      (dividePair_marks h signed remainder lhs rhs hwork).imp (S := M st) fun _ _ hM =>
        hsame ▸ hM
    exact (h.preserving hdivide).keep fun _ => .pure rfl
  · exact h.then (widen_routine _ signed hwork) fun _ _ =>
      h.then (widen_routine _ signed hwork) fun _ _ =>
      h.then (divisorOperand_routine _) fun _ _ =>
      h.then (preserving_routine _ (dividePair_routine _ _ _ _ hwork)) fun _ _ =>
      hresult (h.fill st .mov fun dst => [dst, _])

theorem lowerLoad_marks : Gives env I (lowerLoad i) (Marked M i) := by
  refine .after (.check _) fun st hst => .after (.check _) fun _ hops => ?_
  exact h.then (addressRegister_routine (hi _ (mem_of_unaryOperand hops))) fun _ _ =>
    h.then (memoryAt_routine _ (Terms.byValue _ hst)) fun _ _ =>
    (h.fill st .mov fun dst => [dst, _]).imp fun _ _ hM =>
      ⟨st, fun _ => storageOf_of_scalarStorage (scalarStorage_of_byValueStorage hst), hM⟩

theorem lowerGep_marks (hop : i.opcode = .gep) :
    Gives env I (lowerGep i) (Marked M i) := by
  unfold lowerGep
  split
  · exact .refuse
  · next base indices hops =>
    rw [hops, List.forall_mem_cons] at hi
    refine h.then (addressRegister_routine hi.1) fun _ _ =>
      .after .sourceModule fun _ _ =>
      .after (.check _) fun _ _ => h.then (walk_routine _ _ _ hi.2) fun _ _ =>
      (h.fresh .ptr fun id => ?_).imp fun _ _ hM => ⟨.ptr, fun htyped => ?_, hM⟩
    · exact (memoryOperand_routine _ _).bind fun _ _ => .bind (.emit _ _) fun _ _ =>
        .pure rfl
    · obtain ⟨ty, hty⟩ := htyped.gep hop
      rw [hty]
      rfl

/--
The result of a call is copied out of the return register, and kept while arguments are
reloaded.
-/
theorem lowerCall_marks (hs : I s) (hrun : Runs (lowerCall i) env s (some id) s') :
    Marked M i id s' := by
  obtain ⟨abi, _, habi, hrun⟩ := runs_bind.mp hrun
  obtain ⟨-, rfl⟩ := runs_theAbi.mp habi
  split at hrun
  · exact absurd (runs_check.mp hrun).1 violate_ne_ok
  · next callee args hops =>
    rw [hops, List.forall_mem_cons] at hi
    dsimp only at hrun
    split at hrun
    · cases (runs_check.mp hrun).1
    · simp only [preserving, runs_bind, runs_check, runs_checkWord, runs_sourceModule,
        runs_pure] at hrun
      obtain ⟨_, _, ⟨-, rfl⟩, _, _, ⟨hsts, rfl⟩, ret, _, ⟨hret, rfl⟩, _, t1, htarget, _,
        _, ⟨-, rfl⟩, _, t2, hreserve, _, t3, hargs, saved, t4, hsave, _, t, ⟨_, t5, hbind,
        _, t6, hcall, hresult⟩, _, _, hreload, rfl, rfl⟩ := hrun
      have hstep : ∀ {α : Type} {x : LowerM α} {Q : α → Prop} {a : α} {u u' : State},
          Does h.before.terms x Q → I u → Runs x env u a u' → I u' :=
        fun hx hu hrun => ((h.before.upholds hx).ok _ _ _ hu hrun).1
      have h2 := hstep (.reserve (h.reserve _))
        (hstep (callTarget_routine hi.1) hs htarget) hreserve
      have h4 := hstep (.mapM fun _ _ => saveArg_routine _)
        (hstep (argsIn_routine _) h2 hargs) hsave
      have h5 := hstep (bindArguments_routine _ hi.2 (Terms.arguments _ hsts)) h4 hbind
      have h6 := hstep (.emit _ _) h5 hcall
      have hmarked : M ret id t := by
        unfold callResult at hresult
        split at hresult
        · cases (runs_pure.mp hresult).1
        · simp only [runs_bind, runs_theAbi, runs_pure] at hresult
          obtain ⟨_, _, ⟨-, rfl⟩, _, t7, hphys, dst, t8, hnew, _, _, hemit, heq, rfl⟩ :=
            hresult
          cases heq
          have h7 := hstep (.physReg (Terms.byValue _ hret)) h6 hphys
          exact ((emit_upholds (h.after ret id) _ _).ok _ _ _
            (h.register ret _ _ _ h7 hnew) hemit).1
      exact ⟨ret, fun _ =>
        storageOf_of_scalarStorage (scalarStorage_of_byValueStorage hret),
        ((Upholds.forM fun _ _ => emit_upholds (h.after ret id) _ _).ok _ _ _ hmarked
          hreload).1⟩

/--
The result of every instruction has the mark, unless it is a cast that keeps the bits.
-/
theorem selectInst_marks {k : InstId} (hop : i.opcode.isReinterpret = false) (hs : I s)
    (hrun : Runs (selectInst k i) env s (some id) s') : Marked M i id s' := by
  have hgives : ∀ {x : LowerM OperandId}, Gives env I x (Marked M i) →
      Runs (some <$> x) env s (some id) s' → Marked M i id s' := by
    intro x hx hrun
    obtain ⟨a, heq, hrun⟩ := some_map hrun
    cases heq
    exact hx _ _ _ hs hrun
  have hnothing : ∀ {x : LowerM Unit},
      ¬ Runs ((fun _ => none) <$> x) env s (some id) s' :=
    fun hrun => by cases (none_map hrun).1
  unfold selectInst at hrun
  cases hopcode : i.opcode with
  | add | sub | mul | and | or | xor =>
    rw [hopcode] at hrun
    exact hgives (lowerBinary_marks h hi _) hrun
  | div | rem =>
    rw [hopcode] at hrun
    exact hgives (lowerDivision_marks h hi _) hrun
  | shl | shr =>
    rw [hopcode] at hrun
    exact hgives (lowerShift_marks h hi _) hrun
  | cmp p =>
    rw [hopcode] at hrun
    exact hgives (lowerCompare_marks h hi hopcode) hrun
  | alloca =>
    rw [hopcode] at hrun
    exact hgives (lowerAlloca_marks h) hrun
  | load =>
    rw [hopcode] at hrun
    exact hgives (lowerLoad_marks h hi) hrun
  | gep =>
    rw [hopcode] at hrun
    exact hgives (lowerGep_marks h hi hopcode) hrun
  | call =>
    rw [hopcode] at hrun
    exact lowerCall_marks h hi hs hrun
  | trunc =>
    rw [hopcode] at hrun
    exact hgives (lowerTrunc_marks h hi) hrun
  | zext | sext =>
    rw [hopcode] at hrun
    exact hgives (lowerExtend_marks h hi _) hrun
  | ptrToInt | intToPtr | bitcast =>
    rw [hopcode] at hop
    cases hop
  | store | phi | br | condBr | ret =>
    rw [hopcode] at hrun
    exact absurd hrun hnothing
  | fadd | fsub | fmul | fdiv | fpToSi | siToFp | fpExt | fpTrunc =>
    rw [hopcode] at hrun
    cases (runs_check.mp hrun).1

end Routines

/-! ## Classes of results -/

/-- An operand of a class, which is that of addresses for a slot or a symbol. -/
def Classed (st : Storage) (o : Operand) : Prop := o.storage = st ∧
    (o.needsAddress = true → st = .ptr)

/-- Nothing is asked of a session. -/
theorem durable_true : Durable env (fun _ => True) fun _ => True :=
  Indifferent.durable
    { plain := fun _ _ _ _ _ _ _ _ => trivial
      alike := fun _ _ _ _ _ _ _ _ _ _ _ _ => trivial
      result := fun _ _ _ _ _ _ _ _ _ _ => trivial
      constant := fun _ _ _ _ _ _ _ _ _ _ _ _ _ => trivial
      function := fun _ _ _ _ _ _ _ _ _ => trivial
      global := fun _ _ _ _ _ _ _ => trivial
      code := fun _ _ _ _ _ _ _ _ _ => trivial
      values := fun _ _ _ _ _ => trivial
      blocks := fun _ _ _ => trivial
      insertion := fun _ _ _ => trivial
      pending := fun _ _ _ _ => trivial
      drawn := fun _ _ _ _ _ _ _ _ => trivial }

/-- What is numbered for an answer has the class that it is numbered with. -/
theorem marks_classed : Marks env (fun _ => True) (fun _ => True) fun st id s =>
    s.Stands id (Classed st) where
  before := durable_true
  reserve _ _ _ _ _ := trivial
  after st id := .stands id _
  register st s id s' _ hrun := by
    obtain ⟨r, -, -, -, hid⟩ := newVReg_stands hrun
    exact hid.imp fun o ho => by rw [ho]; exact ⟨rfl, nofun⟩
  slot size align s id s' _ hrun := by
    obtain ⟨c, -, -, -, -, rfl, rfl⟩ := runs_newSlot.mp hrun
    exact (State.Stands.of_get rfl fun _ => get?_nextId).imp fun o ho => by
      rw [ho]; exact ⟨rfl, fun _ => rfl⟩

/--
An operand as wide as the values of a type. A slot or a symbol stands for its address.
-/
def Carries (ty : IR.Ty) (o : Operand) : Prop :=
  (∃ st, storageOf ty = .ok st ∧ o.storage.bits = st.bits) ∧
    (o.needsAddress = true → o.storage.bits = 64)

theorem carries_of_storage {ty : IR.Ty} {st : Storage} {o : Operand}
    (hty : storageOf ty = .ok st) (h : Classed st o) : Carries ty o :=
  ⟨⟨st, hty, by rw [h.1]⟩, fun hneeds => by rw [h.1, h.2 hneeds]; rfl⟩

/--
The result of an instruction has the width of its type, unless it is a cast that keeps the
bits.
-/
theorem selectInst_carries {k : InstId} {i : Inst} (htyped : i.Typed)
    (hop : i.opcode.isReinterpret = false)
    (h : Runs (selectInst k i) env s (some id) s') : s'.Stands id (Carries i.ty) := by
  obtain ⟨st, hty, hid⟩ :=
    selectInst_marks marks_classed (fun _ _ => trivial) hop trivial h
  exact hid.imp fun o => carries_of_storage (hty htyped)

/-! ## Casts that keep the bits -/

section Copies

variable {W : IR.Ty → Prop} {r : OperandId}

/-- A copy is as wide as the operand, and an address as wide as a pointer. -/
theorem copyToVReg_carries (hid : s.Stands id fun o => ∃ ty, W ty ∧ Carries ty o)
    (h : Runs (copyToVReg id) env s r s') : s'.Stands r fun o => ∃ ty, W ty ∧
      Carries ty o := by
  have hrun := h
  obtain ⟨o, t, ho, hcopy⟩ := runs_bind.mp hrun
  obtain ⟨rfl, hholds⟩ := holds_of_operand ho
  have hsource : s.Stands id fun x => x = o ∧ ∃ ty, W ty ∧ Carries ty x :=
    fun hsmall => by
    obtain ⟨x, hx, hcarries⟩ := hid hsmall
    exact ⟨x, hx, hx.unique hholds, hcarries⟩
  have hdst : s'.Stands r (Classed (if o.needsAddress then .ptr else o.storage)) :=
    marks_classed.fresh _ (fun _ => (materialize_routine _ _).bind fun _ _ => .pure rfl) _
      _ _ trivial hcopy
  intro hsmall
  obtain ⟨_, -, rfl, ty, hty, ⟨st, hst, hbits⟩, haddress⟩ :=
    (((Durable.stands id _).upholds (copyToVReg_routine id)).ok _ _ _ hsource h).1 hsmall
  obtain ⟨x, hx, hclass, hplain⟩ := hdst hsmall
  refine ⟨x, hx, ty, hty, ⟨st, hst, ?_⟩, fun hneeds => by rw [hclass, hplain hneeds]; rfl⟩
  rw [hclass, ← hbits]
  split
  · next hneeds => exact (haddress hneeds).symm
  · rfl

/-- An operand in a register is as wide as before. -/
theorem intoRegister_carries (hid : s.Stands id fun o => ∃ ty, W ty ∧ Carries ty o)
    (h : Runs (intoRegister id) env s r s') : s'.Stands r fun o => ∃ ty, W ty ∧
      Carries ty o := by
  obtain ⟨o, t, ho, hrun⟩ := runs_bind.mp h
  obtain ⟨rfl, -⟩ := holds_of_operand ho
  split at hrun
  · obtain ⟨rfl, rfl⟩ := runs_pure.mp hrun
    exact hid
  · exact copyToVReg_carries hid hrun

end Copies

end InstSelect.Lowering
