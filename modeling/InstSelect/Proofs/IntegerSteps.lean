import InstSelect.Proofs.Sessions
import InstSelect.Proofs.IntegerResults
import InstSelect.Proofs.LinkedModules

/-!
# One integer instruction at a time

The relation between a run of source instructions and a run of the code selected for them:
arguments are in their registers, and each result so far is in the operand that its value
is bound to. Lowering one more integer instruction keeps this relation. The operands of an
instruction are found in it, the form of the selected code says what that code computes
from them, and tame code leaves all the rest in place.
-/

namespace InstSelect.Machine

variable {h : Host} {σ τ : Cpu} {args : List Incoming} {n m w : Nat} {o d l x : Operand}
  {code : List Code} {st : Storage} {op : Op}

/--
A source that tame code leaves alone: of the physical registers only those of the
arguments.
-/
structure Operand.Held (args : List Incoming) (n w : Nat) (o : Operand) : Prop where
  source : o.Source n w
  argument : ∀ r, o.form = .phys r → o ∈ args.map Incoming.operand

theorem Operand.Held.mono (ho : o.Held args n w) (hle : n ≤ m) : o.Held args m w :=
  ⟨ho.source.mono hle, ho.argument⟩

/-- Tame code keeps the values of held operands. -/
theorem Preserves.value (hp : Preserves args n σ τ) (ho : o.Held args n w) :
    (h.value τ o).setWidth w = (h.value σ o).setWidth w := by
  obtain ⟨⟨hsteady, hwidth, -⟩, hargs⟩ := ho
  subst hwidth
  obtain ⟨form, st⟩ := o
  cases form with
  | phys r =>
    obtain ⟨a, ha, hoperand⟩ := List.mem_map.mp (hargs r rfl)
    cases hoperand
    exact hp.args a ha
  | virt r =>
    have hvirt := hp.virt r hsteady
    exact congrArg (BitVec.setWidth _) hvirt
  | mem a => exact hsteady.elim
  | _ => rfl

/-- A virtual register below the next number is held. -/
theorem held_virt (args : List Incoming) {r : VReg} (st : Storage)
    (hr : r.index.toNat < n) :
    (⟨.virt r, st⟩ : Operand).Held args n st.width :=
  ⟨⟨hr, rfl, fun haddr => by cases haddr⟩, fun _ hform => by cases hform⟩

theorem Operand.needsAddress_of_isRegister (ho : o.isRegister = true) :
    o.needsAddress = false := by
  obtain ⟨form, st⟩ := o
  cases form with
  | phys | virt => rfl
  | _ => cases ho

theorem Fetch.held {o' : Operand} (hf : Fetch n o o' code m) (ho : o.Held args n w) :
    o'.Held args m w := by
  cases hf with
  | keep => exact ho
  | copy r fresh =>
    refine ⟨(Fetch.copy r fresh).source ho.source, fun _ hform => ?_⟩
    cases hform

/-! ## Results in registers -/

theorem ShiftCode.result {a : Operand} (hcode : ShiftCode args op st n l a d code m) :
    ∃ r : VReg, d = ⟨.virt r, st⟩ ∧ r.index.toNat < m := by
  cases hcode with
  | immediate dst amount _ | register dst amount _ _ =>
    have := amount.le
    exact ⟨_, rfl, by omega⟩

theorem CompareCode.result {cond : Cond} {r : Operand}
    (hcode : CompareCode cond n l r d code m) :
    ∃ r : VReg, d = ⟨.virt r, .i8⟩ ∧ r.index.toNat < m := by
  cases hcode
  exact ⟨_, rfl, Nat.lt_succ_self _⟩

theorem TruncCode.result (hcode : TruncCode st n x d code m) :
    ∃ r : VReg, d = ⟨.virt r, st⟩ ∧ r.index.toNat < m := by
  cases hcode <;> exact ⟨_, rfl, Nat.lt_succ_self _⟩

theorem ExtendCode.result (hcode : ExtendCode op st n x d code m) :
    ∃ r : VReg, d = ⟨.virt r, st⟩ ∧ r.index.toNat < m := by
  cases hcode
  exact ⟨_, rfl, Nat.lt_succ_self _⟩

theorem clobbersNothing_shiftOp (right signed : Bool) :
    (Lowering.shiftOp right signed).clobbersNothing = true := by
  cases right <;> cases signed <;> rfl

theorem isTerminator_shiftOp (right signed : Bool) :
    (Lowering.shiftOp right signed).isTerminator = false := by
  cases right <;> cases signed <;> rfl

end InstSelect.Machine

namespace InstSelect.Lowering

open IR (ValueId InstId Inst World Results)
open Machine (Storage Operand OperandId Op VReg Code Arena Incoming Host Cpu Preserves)

variable {env : Env} {s s' t : State} {A : Arena} {args : List Incoming} {h : Host}
  {σ τ : Cpu} {W : World} {ρ : Results} {w : Nat} {ty : IR.Ty} {code : List Code}
  {r l : ValueId} {inst : InstId} {st : Storage} {i : Inst} {op : Op}

/-- The width of a type is that of its class. -/
theorem width_of_storageOf (hw : ty.width? = some w) (hst : storageOf ty = .ok st) :
    st.width = w := by
  rw [IR.Ty.width?, hst] at hw
  dsimp only at hw
  split at hw
  · exact Option.some.inj hw
  · cases hw

/-- Integer classes are at least a byte wide. -/
theorem eight_le_width (hw : ty.width? = some w) : 8 ≤ w := by
  unfold IR.Ty.width? at hw
  split at hw
  · next st _ =>
    split at hw
    · next hint =>
      cases hw
      revert hint
      cases st <;> decide
    · cases hw
  · cases hw

/-! ## Agreement -/

/--
What a source function leaves open is as the machine has it, given the final bindings.
-/
structure Placement (env : Env) (h : Host) (A : Arena) (final : State) (W : World) :
    Prop where
  function : ∀ g d name, env.module.function g = .ok d →
    env.abi.symbolName d.name = .ok name →
    W.function g = h.symbol name
  global : ∀ g d, env.module.global g = .ok d → W.global g = h.symbol d.name
  object : ∀ v id slot size align st, final.values.find? v = some id →
    A.get? id = some ⟨.slot slot size align, st⟩ → W.object v = h.slot slot

/-- Arguments and results are where the machine expects them. -/
structure Agrees (env : Env) (h : Host) (A : Arena) (args : List Incoming) (W : World)
    (s : State) (σ : Cpu) (ρ : Results) : Prop where
  arguments : ∀ a ∈ args, (σ.phys a.reg).setWidth a.storage.width =
    (W.argument a.index).setWidth a.storage.width
  results : ∀ v x, env.module.leaf? W v = none → ρ v = some x → ∃ id o w,
    s.values.find? v = some id ∧ A.get? id = some o ∧ o.isRegister = true ∧
    env.module.width? v = some w ∧ o.Held args s.vregs w ∧
    (h.value σ o).setWidth w = x.setWidth w

/-- What does not change while a function is lowered and its code is run. -/
structure Setting (env : Env) (h : Host) (A : Arena) (W : World) (func : IR.FuncId)
    (f : IR.Function) (final : State) : Prop where
  abi : env.abi = .win64
  host : h.abi = .win64
  linked : env.module.Linked
  function : env.module.function func = .ok f
  placement : Placement env h A final W

/-- A state on the way to the final one. -/
structure Towards (A : Arena) (final t : State) : Prop where
  within : t.Within A
  values : ∀ v id, t.values.find? v = some id → final.values.find? v = some id

theorem Towards.path {final : State} (h : Towards A final t) (hp : Path env s t code) :
    Towards A final s :=
  ⟨hp.within h.within, fun v id hv => h.values v id (hp.values hv)⟩

section

variable {func : IR.FuncId} {f : IR.Function} {sts : List Storage} {c : Current}
  {final : State} {v : ValueId} {x : BitVec 64} {id : OperandId} {n : Nat}

/-- The operand of an own argument is the register of that argument. -/
theorem argument_operand {index : UInt32} (hm : env.module.Linked)
    (hfunc : env.module.function func = .ok f) (hs : Session env func f sts t c)
    (hA : t.Within A) (hv : env.module.value v = .ok ⟨ty, .argument c.source index⟩)
    (harg : c.machine.arg? index.toNat = some id) :
    ∃ a ∈ incoming sts, a.index = index.toNat ∧ storageOf ty = .ok a.storage ∧
      A.get? id = some a.operand := by
  obtain ⟨hlt, hid⟩ := List.getElem?_eq_some_iff.mp harg
  have hlt' : index.toNat < (incoming sts).length := by
    have := hs.args.length_eq
    rw [List.length_map] at this
    omega
  have hname := hs.args.get hlt (by rwa [List.length_map])
  obtain ⟨hindex, -, hst⟩ := getElem?_incoming.mp (List.getElem?_eq_getElem hlt')
  obtain ⟨hlt'', hst'⟩ := List.getElem?_eq_some_iff.mp hst
  -- The value's type is the parameter's.
  obtain ⟨f', hf', -, hty⟩ := hm.values _ _ (IR.Module.value_eq_ok.mp hv)
  rw [hs.source, ← IR.Module.function_eq_ok] at hf'
  cases hfunc.symm.trans hf'
  obtain ⟨hparam, rfl⟩ := List.getElem?_eq_some_iff.mp hty
  refine ⟨(incoming sts)[index.toNat], List.getElem_mem hlt', hindex, ?_, ?_⟩
  · rw [← hst']
    exact storageOf_of_scalarStorage (hs.params.get hparam hlt'')
  · rw [← hid]
    simpa using hname.get? (hA c hs.current)

theorem width?_eq {kind : IR.ValueKind} (hv : env.module.value v = .ok ⟨ty, kind⟩) :
    env.module.width? v = ty.width? := by
  rw [IR.Module.width?, hv]

/-- Addresses are as wide as pointers. -/
theorem width_of_ptr {pointee : IR.Ty} (hw : (IR.Ty.ptr pointee).width? = some w) :
    w = 64 :=
  (width_of_storageOf hw rfl).symm

/--
A value that no instruction of a stream computes is bound to an operand that has its word.
-/
theorem leaf_agrees (hset : Setting env h A W func f final)
    (hs : Session env func f sts t c) (ht : Towards A final t)
    (hargs : ∀ a ∈ incoming sts, (σ.phys a.reg).setWidth a.storage.width =
      (W.argument a.index).setWidth a.storage.width)
    (hleaf : env.module.leaf? W v = some x) (hw : env.module.width? v = some w)
    (hfind : t.values.find? v = some id) (n : Nat) :
    ∃ o, A.get? id = some o ∧ o.Held (incoming sts) n w ∧
      (h.value σ o).setWidth w = x.setWidth w := by
  have hm := hset.linked
  have hplace := hset.placement
  have hwithin := ht.within c hs.current
  cases hs.bound v id hfind with
  | leaf leaf =>
    cases leaf with
    | argument ty index value arg =>
      obtain ⟨a, ha, hindex, hst, hget⟩ :=
        argument_operand hm hset.function hs ht.within value arg
      rw [width?_eq value] at hw
      rw [IR.Module.leaf?, value] at hleaf
      cases hleaf
      have hwidth := width_of_storageOf hw hst
      subst hwidth
      refine ⟨a.operand, hget, ⟨⟨trivial, rfl, fun haddr => by cases haddr⟩, fun _ _ =>
        List.mem_map_of_mem ha⟩, ?_⟩
      rw [← hindex]
      exact hargs a ha
    | constant ty k j st value word storage names =>
      rw [width?_eq value] at hw
      rw [IR.Module.leaf?, value] at hleaf
      cases k with
      | int j' =>
        cases hleaf
        cases word
        exact ⟨_, names.get? hwithin, ⟨⟨trivial, width_of_storageOf hw storage,
          fun haddr => by cases haddr⟩, fun _ hform => by cases hform⟩, rfl⟩
      | _ => cases hleaf
    | function ty g d name value function symbol names =>
      rw [width?_eq value] at hw
      rw [IR.Module.leaf?, value] at hleaf
      cases hleaf
      obtain ⟨d', hd', -, rfl⟩ := hm.values _ _ (IR.Module.value_eq_ok.mp value)
      obtain rfl := width_of_ptr hw
      refine ⟨_, names.get? hwithin,
        ⟨⟨trivial, rfl, fun _ => rfl⟩, fun _ hform => by cases hform⟩, ?_⟩
      rw [hplace.function g d name function symbol]
      rfl
    | global ty g d value global names =>
      rw [width?_eq value] at hw
      rw [IR.Module.leaf?, value] at hleaf
      cases hleaf
      obtain ⟨d', hd', -, rfl⟩ := hm.values _ _ (IR.Module.value_eq_ok.mp value)
      obtain rfl := width_of_ptr hw
      refine ⟨_, names.get? hwithin,
        ⟨⟨trivial, rfl, fun _ => rfl⟩, fun _ hform => by cases hform⟩, ?_⟩
      rw [hplace.global g d global]
      rfl
    | block ty b mb value block names =>
      rw [IR.Module.leaf?, value] at hleaf
      cases hleaf
  | result k i inst value object =>
    subst value
    have hvalue := IR.Module.value_eq_ok.mpr
      (hm.insts _ i (IR.Module.inst_eq_ok.mp inst)).value
    rw [width?_eq hvalue] at hw
    rw [IR.Module.leaf?, hvalue] at hleaf
    simp only [UInt32.ofNat_toNat, inst] at hleaf
    split at hleaf
    · next hop =>
      cases hleaf
      obtain ⟨ty, slot, size, align, hty, hget⟩ := object hop A hwithin
      rw [hty] at hw
      obtain rfl := width_of_ptr hw
      refine ⟨_, hget, ⟨⟨trivial, rfl, fun _ => rfl⟩, fun _ hform => by cases hform⟩, ?_⟩
      rw [hplace.object _ _ _ _ _ _ (ht.values _ _ hfind) hget]
      rfl
    · cases hleaf

theorem read?_eq_some {y : BitVec w} (hread : env.module.read? W ρ w v = some y) :
    env.module.width? v = some w ∧ ∃ x, x.setWidth w = y ∧
      (env.module.leaf? W v = some x ∨ env.module.leaf? W v = none ∧ ρ v = some x) := by
  unfold IR.Module.read? at hread
  split at hread
  · next hw =>
    obtain ⟨x, hx, hy⟩ := Option.map_eq_some_iff.mp hread
    refine ⟨hw, x, hy, ?_⟩
    cases hleaf : env.module.leaf? W v with
    | some z => exact .inl (by rwa [hleaf] at hx)
    | none => exact .inr ⟨rfl, by rwa [hleaf] at hx⟩
  · cases hread

/-- An operand with a meaning is bound to a machine operand that has it. -/
theorem operand_agrees {o : Operand} {y : BitVec w}
    (hset : Setting env h A W func f final) (hs : Session env func f sts s c)
    (ht : Towards A final t) (hpath : Path env s t code)
    (hagrees : Agrees env h A (incoming sts) W s σ ρ)
    (hread : env.module.read? W ρ w v = some y) (hfind : t.values.find? v = some id)
    (ho : A.get? id = some o) :
    o.Held (incoming sts) s.vregs w ∧ (h.value σ o).setWidth w = y := by
  obtain ⟨hw, x, rfl, hleaf | ⟨hleaf, hρ⟩⟩ := read?_eq_some hread
  · obtain ⟨d, hd⟩ := hs.path hpath
    obtain ⟨o', ho', hagreed⟩ :=
      leaf_agrees hset hd ht hagrees.arguments hleaf hw hfind s.vregs
    cases ho.symm.trans ho'
    exact hagreed
  · obtain ⟨id', o', w', hfind', ho', -, hw', hagreed⟩ := hagrees.results v x hleaf hρ
    cases (hpath.values hfind').symm.trans hfind
    cases hw.symm.trans hw'
    cases ho.symm.trans ho'
    exact hagreed

theorem signed_of_valueTy (hty : env.module.valueTy v = .ok ty) :
    env.module.signed v = ty.isSigned := by
  unfold IR.Module.valueTy at hty
  unfold IR.Module.signed
  cases hv : env.module.value v with
  | ok data =>
    rw [hv] at hty
    cases hty
    rfl
  | error e =>
    rw [hv] at hty
    cases hty

theorem eight_le_width_of_read {y : BitVec w}
    (hread : env.module.read? W ρ w v = some y) :
    8 ≤ w := by
  obtain ⟨hw, -⟩ := read?_eq_some hread
  unfold IR.Module.width? at hw
  split at hw
  · exact eight_le_width hw
  · cases hw

theorem selectInst_arithmetic {g : ∀ w, BitVec w → BitVec w → BitVec w} (inst : InstId)
    (hg : i.opcode.arithmetic? = some g) :
    ∃ op, Machine.binaryOp? i.opcode = some op ∧ op.clobbersNothing = true ∧
      selectInst inst i = some <$> lowerBinary op i := by
  unfold selectInst
  cases hop : i.opcode <;> rw [hop] at hg <;> try cases hg
  all_goals exact ⟨_, rfl, rfl, rfl⟩

theorem selectInst_shift {signed : Bool} {g : ∀ w, BitVec w → Nat → BitVec w}
    (inst : InstId) (hg : i.opcode.shift? signed = some g) :
    ∃ right, i.opcode = (if right then IR.Opcode.shr else .shl) ∧
      selectInst inst i = some <$> lowerShift right i := by
  unfold selectInst
  cases hop : i.opcode <;> rw [hop] at hg <;> try cases hg
  · exact ⟨false, rfl, rfl⟩
  · exact ⟨true, rfl, rfl⟩

/-! ## Single instructions -/

/-- Selection from `s` to `t` gave code that computes a word into the operand `id`. -/
def Evaluates (env : Env) (h : Host) (A : Arena) (args : List Incoming) (s t : State)
    (id : OperandId) (σ : Cpu) (x : BitVec w) : Prop :=
  ∃ code d τ, Path env s t code ∧ A.get? id = some d ∧ d.isRegister = true ∧
    d.Held args t.vregs w ∧ h.run code σ = some (.falls τ) ∧ Preserves args s.vregs σ τ ∧
    (h.value τ d).setWidth w = x

/-- The result of code that ends in a virtual register. -/
theorem evaluates_virt {r : VReg} {x : BitVec st.width} (hpath : Path env s t code)
    (hget : A.get? id = some ⟨.virt r, st⟩) (hr : r.index.toNat < t.vregs)
    (hrun : h.run code σ = some (.falls τ)) (hp : Preserves args s.vregs σ τ)
    (hx : (h.value τ ⟨.virt r, st⟩).setWidth st.width = x) :
    Evaluates env h A args s t id σ x :=
  ⟨code, _, τ, hpath, hget, rfl, Machine.held_virt args st hr, hrun, hp, hx⟩

variable (hset : Setting env h A W func f final) (hs : Session env func f sts s c)
  (ht : Towards A final t) (hagrees : Agrees env h A (incoming sts) W s σ ρ) {i : Inst}

include hset hs ht hagrees

theorem lowerBinary_evaluates {a b : BitVec w} {g : ∀ w, BitVec w → BitVec w → BitVec w}
    (hrun : Runs (lowerBinary op i) env s id t) (hw : i.ty.width? = some w)
    (hops : i.operands = [l, r]) (hop : op.Computes g)
    (hquiet : op.clobbersNothing = true) (hl : env.module.read? W ρ w l = some a)
    (hr : env.module.read? W ρ w r = some b) :
    Evaluates env h A (incoming sts) s t id σ (g w a b) := by
  obtain ⟨st, l', r', idl, idr, code, hst, hops', hpath, hfl, hfr, hcode⟩ :=
    lowerBinary_code hrun
  cases hops.symm.trans hops'
  obtain ⟨ol, or, d, hol, hor, hget, hform⟩ := hcode A ht.within
  obtain ⟨heldl, valuel⟩ := operand_agrees hset hs ht hpath hagrees hl hfl hol
  obtain ⟨heldr, valuer⟩ := operand_agrees hset hs ht hpath hagrees hr hfr hor
  have hwidth := width_of_storageOf hw (storageOf_of_scalarStorage hst)
  subst hwidth
  obtain ⟨τ, hexec, hvalue⟩ := hform.computes hop heldl.source.steady heldr.source h σ
  have hp : Preserves (incoming sts) s.vregs σ τ :=
    .of_keeps (Machine.Keeps.of_run (hform.quiet hquiet) hexec)
  rw [valuel, valuer] at hvalue
  obtain ⟨right, direct, source⟩ := hform
  exact evaluates_virt hpath hget source.le hexec hp hvalue

theorem lowerShift_evaluates {right : Bool} {v : Nat} {a : BitVec w} {k : BitVec v}
    {g : ∀ w, BitVec w → Nat → BitVec w} (hrun : Runs (lowerShift right i) env s id t)
    (hw : i.ty.width? = some w) (hops : i.operands = [l, r])
    (hg : (if right then IR.Opcode.shr else .shl).shift? (env.module.signed l) = some g)
    (hl : env.module.read? W ρ w l = some a) (hr : env.module.read? W ρ v r = some k)
    (hlt : k.toNat < w) :
    Evaluates env h A (incoming sts) s t id σ (g w a k.toNat) := by
  obtain ⟨st, l', r', ty, idl, idr, code, hst, hops', hty, hpath, hfl, hfr, hcode⟩ :=
    lowerShift_code hset.abi hrun
  cases hops.symm.trans hops'
  obtain ⟨ol, or, d, hol, hor, hget, hform⟩ :=
    hcode A (incoming sts) ht.within (hs.arguments (hpath.within ht.within))
  obtain ⟨heldl, valuel⟩ := operand_agrees hset hs ht hpath hagrees hl hfl hol
  obtain ⟨heldr, valuer⟩ := operand_agrees hset hs ht hpath hagrees hr hfr hor
  have hwidth := width_of_storageOf hw (storageOf_of_scalarStorage hst)
  subst hwidth
  rw [signed_of_valueTy hty] at hg
  have hcount : 8 ≤ v := eight_le_width_of_read hr
  obtain ⟨τ, hexec, hvalue⟩ :=
    hform.computes (Machine.shifts_shiftOp hg) (placed_incoming sts)
    heldr.source hcount h σ (congrArg BitVec.toNat valuer) hlt
  have htame : Machine.Tame false (incoming sts) s.vregs code :=
    hform.tame (Machine.clobbersNothing_shiftOp _ _) (Machine.isTerminator_shiftOp _ _)
  have hp := htame.preserves (placed_incoming sts) hset.host hexec
  rw [valuel] at hvalue
  obtain ⟨r, rfl, hr⟩ := hform.result
  exact evaluates_virt hpath hget hr hexec hp hvalue

theorem lowerCompare_evaluates {p : IR.Predicate} {v : Nat} {a b : BitVec v}
    (hrun : Runs (lowerCompare p i) env s id t) (hops : i.operands = [l, r])
    (hl : env.module.read? W ρ v l = some a) (hr : env.module.read? W ρ v r = some b) :
    Evaluates env h A (incoming sts) s t id σ
      (if p.holds (env.module.signed l) a b then (1 : BitVec 8) else 0) := by
  obtain ⟨l', r', ty, st, idl, idr, code, hops', hty, -, hpath, hfl, hfr, hcode⟩ :=
    lowerCompare_code hrun
  cases hops.symm.trans hops'
  obtain ⟨ol, or, d, hol, hor, hget, hform⟩ := hcode A ht.within
  obtain ⟨heldl, valuel⟩ := operand_agrees hset hs ht hpath hagrees hl hfl hol
  obtain ⟨heldr, valuer⟩ := operand_agrees hset hs ht hpath hagrees hr hfr hor
  obtain ⟨τ, hexec, hvalue⟩ := hform.computes heldl.source heldr.source h σ
  have hp : Preserves (incoming sts) s.vregs σ τ :=
    .of_keeps (Machine.Keeps.of_run hform.quiet hexec)
  rw [valuel, valuer, Machine.relates_conditionCode, ← signed_of_valueTy hty] at hvalue
  obtain ⟨r, rfl, hr⟩ := hform.result
  exact evaluates_virt hpath hget hr hexec hp hvalue

theorem lowerTrunc_evaluates {x : ValueId} {v : Nat} {a : BitVec v}
    (hrun : Runs (lowerTrunc i) env s id t) (hw : i.ty.width? = some w)
    (hops : i.operands = [x]) (hx : env.module.read? W ρ v x = some a) (hlt : w < v) :
    Evaluates env h A (incoming sts) s t id σ (a.setWidth w) := by
  obtain ⟨st, x', idx, code, hst, hops', hpath, hfx, hcode⟩ := lowerTrunc_code hrun
  cases hops.symm.trans hops'
  obtain ⟨ox, d, hox, hget, hform⟩ := hcode A ht.within
  obtain ⟨held, rfl⟩ := operand_agrees hset hs ht hpath hagrees hx hfx hox
  have hwidth := width_of_storageOf hw (storageOf_of_scalarStorage hst)
  subst hwidth
  obtain ⟨τ, hexec, hvalue⟩ := hform.computes held.source h σ
  have hp : Preserves (incoming sts) s.vregs σ τ :=
    .of_keeps (Machine.Keeps.of_run hform.quiet hexec)
  obtain ⟨r, rfl, hr⟩ := hform.result
  refine evaluates_virt hpath hget hr hexec hp (hvalue.trans ?_)
  exact (BitVec.setWidth_setWidth_of_le _ (Nat.le_of_lt hlt)).symm

theorem lowerExtend_evaluates {x : ValueId} {v : Nat} {a : BitVec v}
    {g : ∀ v w, BitVec v → BitVec w} (hrun : Runs (lowerExtend op i) env s id t)
    (hw : i.ty.width? = some w) (hops : i.operands = [x]) (hop : op.Converts g)
    (hquiet : op.clobbersNothing = true) (hx : env.module.read? W ρ v x = some a) :
    Evaluates env h A (incoming sts) s t id σ (g v w a) := by
  obtain ⟨st, x', idx, code, hst, hops', hpath, hfx, hcode⟩ := lowerExtend_code hrun
  cases hops.symm.trans hops'
  obtain ⟨ox, d, hox, hget, hform⟩ := hcode A ht.within
  obtain ⟨held, rfl⟩ := operand_agrees hset hs ht hpath hagrees hx hfx hox
  have hwidth := width_of_storageOf hw (storageOf_of_scalarStorage hst)
  subst hwidth
  obtain ⟨τ, hexec, hvalue⟩ := hform.computes hop held.source h σ
  have hp : Preserves (incoming sts) s.vregs σ τ :=
    .of_keeps (Machine.Keeps.of_run (hform.quiet hquiet) hexec)
  obtain ⟨r, rfl, hr⟩ := hform.result
  exact evaluates_virt hpath hget hr hexec hp hvalue

/--
A cast that keeps the width answers with the operand itself where that is a register.
-/
theorem lowerReinterpret_evaluates {x : ValueId} {a : BitVec w}
    (hrun : Runs (lowerReinterpret i) env s id t) (hops : i.operands = [x])
    (hx : env.module.read? W ρ w x = some a) :
    Evaluates env h A (incoming sts) s t id σ a := by
  obtain ⟨st, x', idx, code, -, hops', hpath, hfx, hcode⟩ := lowerReinterpret_code hrun
  cases hops.symm.trans hops'
  obtain ⟨ox, d, hox, hget, hfetch, hreg⟩ := hcode A ht.within
  obtain ⟨held, rfl⟩ := operand_agrees hset hs ht hpath hagrees hx hfx hox
  obtain ⟨τ, hexec, hkeeps, hvalue⟩ := hfetch.run_source held.source h σ
  exact ⟨code, d, τ, hpath, hget, hreg, hfetch.held held, hexec, .of_keeps hkeeps, hvalue⟩

/-- The code of an integer instruction computes its meaning. -/
theorem selectInst_evaluates {r : Option OperandId} {x : BitVec w}
    (hrun : Runs (selectInst inst i) env s r t) (hw : i.ty.width? = some w)
    (hobject : i.opcode ≠ .alloca) (hx : env.module.Evaluated W ρ i w x) :
    ∃ o, r = some o ∧ Evaluates env h A (incoming sts) s t o σ x := by
  cases hx with
  | arithmetic op operands left right =>
    obtain ⟨mop, hmop, hquiet, hselect⟩ := selectInst_arithmetic inst op
    rw [hselect] at hrun
    obtain ⟨o, rfl, hlower⟩ := some_map hrun
    exact ⟨o, rfl, lowerBinary_evaluates hset hs ht hagrees hlower hw operands
      (Machine.computes_binaryOp hmop op) hquiet left right⟩
  | shift op operands left right small =>
    obtain ⟨isRight, hop, hselect⟩ := selectInst_shift inst op
    rw [hselect] at hrun
    rw [hop] at op
    obtain ⟨o, rfl, hlower⟩ := some_map hrun
    exact ⟨o, rfl, lowerShift_evaluates hset hs ht hagrees hlower hw operands op
      left right small⟩
  | compare op ty operands left right =>
    simp only [selectInst, op] at hrun
    obtain ⟨o, rfl, hlower⟩ := some_map hrun
    rw [ty] at hw
    cases hw
    exact ⟨o, rfl, lowerCompare_evaluates hset hs ht hagrees hlower operands left right⟩
  | trunc op operands source narrows =>
    simp only [selectInst, op] at hrun
    obtain ⟨o, rfl, hlower⟩ := some_map hrun
    exact ⟨o, rfl, lowerTrunc_evaluates hset hs ht hagrees hlower hw operands
      source narrows⟩
  | zext op operands source _ =>
    simp only [selectInst, op] at hrun
    obtain ⟨o, rfl, hlower⟩ := some_map hrun
    exact ⟨o, rfl, lowerExtend_evaluates hset hs ht hagrees hlower hw operands
      Machine.converts_movzx rfl source⟩
  | sext op operands source _ =>
    simp only [selectInst, op] at hrun
    obtain ⟨o, rfl, hlower⟩ := some_map hrun
    exact ⟨o, rfl, lowerExtend_evaluates hset hs ht hagrees hlower hw operands
      Machine.converts_movsx rfl source⟩
  | cast op operands source =>
    have hselect : selectInst inst i = some <$> lowerReinterpret i := by
      rcases op with op | op | op <;> simp only [selectInst, op]
    rw [hselect] at hrun
    obtain ⟨o, rfl, hlower⟩ := some_map hrun
    exact ⟨o, rfl, lowerReinterpret_evaluates hset hs ht hagrees hlower operands source⟩
  | alloca op => exact absurd op hobject

omit hs ht hagrees hset

/-! ## Agreement from instruction to instruction -/

/-- Code that is tame keeps the agreement. -/
theorem Agrees.path (hagrees : Agrees env h A args W s σ ρ) (hpath : Path env s t code)
    (hp : Preserves args s.vregs σ τ) : Agrees env h A args W t τ ρ where
  arguments a ha := (hp.args a ha).trans (hagrees.arguments a ha)
  results v x hleaf hρ := by
    obtain ⟨id, o, w, hfind, hget, hreg, hw, hheld, hvalue⟩ :=
      hagrees.results v x hleaf hρ
    exact ⟨id, o, w, hpath.values hfind, hget, hreg, hw, hheld.mono hpath.vregs_le,
      (hp.value hheld).trans hvalue⟩

/-- So does the binding of a result that is where the binding says. -/
theorem Agrees.bind {y : BitVec 64} (hagrees : Agrees env h A args W t σ ρ)
    (hunbound : t.values.find? v = none)
    (hnew : env.module.leaf? W v = none →
      ∃ o w, A.get? id = some o ∧ o.isRegister = true ∧
      env.module.width? v = some w ∧ o.Held args t.vregs w ∧
      (h.value σ o).setWidth w = y.setWidth w) :
    Agrees env h A args W { t with values := t.values.insert v id } σ (ρ.set v y) where
  arguments := hagrees.arguments
  results u x hleaf hρ := by
    by_cases huv : u = v
    · subst huv
      rw [Results.set, if_pos rfl] at hρ
      cases hρ
      obtain ⟨o, w, hget, hreg, hw, hheld, hvalue⟩ := hnew hleaf
      exact ⟨id, o, w, Bindings.find?_insert_self _ _ _, hget, hreg, hw, hheld, hvalue⟩
    · rw [Results.set, if_neg huv] at hρ
      obtain ⟨id', o, w, hfind, hrest⟩ := hagrees.results u x hleaf hρ
      refine ⟨id', o, w, ?_, hrest⟩
      rw [Bindings.find?_insert, if_neg (Ne.symm huv)]
      exact hfind

theorem Towards.bind {o : OperandId} (hunbound : t.values.find? v = none)
    (ht : Towards A final { t with values := t.values.insert v o }) :
    Towards A final t := by
  refine ⟨ht.within, fun u id hu => ht.values u id ?_⟩
  rw [Bindings.find?_insert, if_neg ?_]
  · exact hu
  · rintro rfl
    rw [hunbound] at hu
    cases hu

/-- The value of an instruction has the instruction's type and names it. -/
theorem value_of_inst (hm : env.module.Linked) (hi : env.module.inst inst = .ok i) :
    env.module.value i.value = .ok ⟨i.ty, .instruction inst⟩ := by
  have hvalue := (hm.insts _ _ (IR.Module.inst_eq_ok.mp hi)).value
  rw [UInt32.ofNat_toNat] at hvalue
  exact IR.Module.value_eq_ok.mpr hvalue

/-- Lowering one more instruction keeps the agreement. -/
theorem lowerInst_agrees {u : Unit} {x : BitVec w} (hset : Setting env h A W func f final)
    (hs : Session env func f sts s c) (ht : Towards A final s')
    (hagrees : Agrees env h A (incoming sts) W s σ ρ)
    (hrun : Runs (lowerInst inst) env s u s') (hi : env.module.inst inst = .ok i)
    (hw : i.ty.width? = some w) (hx : env.module.eval? W ρ i w = some x) :
    ∃ t code τ, Path env s t code ∧ s'.current = t.current ∧
      h.run code σ = some (.falls τ) ∧
      Agrees env h A (incoming sts) W s' τ (ρ.set i.value (x.setWidth 64)) := by
  obtain ⟨i', r, t, hi', hselect, hbind⟩ := runs_lowerInst hrun
  cases hi.symm.trans hi'
  have hvalue := value_of_inst hset.linked hi
  by_cases hobject : i.opcode = .alloca
  · -- An `alloca` takes no code, and its value is a leaf.
    simp only [selectInst, hobject] at hselect
    obtain ⟨o, rfl, hlower⟩ := some_map hselect
    obtain ⟨hunbound, rfl⟩ := hbind
    obtain ⟨ty, slot, size, align, -, hadds⟩ := lowerAlloca_adds hlower
    have hagrees' := hagrees.path hadds.path (.of_keeps (Machine.Keeps.refl _ _))
    refine ⟨t, [], σ, hadds.path, rfl, rfl, hagrees'.bind hunbound fun hleaf => ?_⟩
    simp [IR.Module.leaf?, hvalue, hi, hobject] at hleaf
  · have ht' : Towards A final t := by
      cases r with
      | some o =>
        obtain ⟨hunbound, rfl⟩ := hbind
        exact Towards.bind hunbound ht
      | none =>
        subst hbind
        exact ht
    obtain ⟨o, rfl, code, d, τ, hpath, hget, hreg, hheld, hexec, hp, hd⟩ :=
      selectInst_evaluates hset hs ht' hagrees hselect hw hobject (.of_eval? hx)
    obtain ⟨hunbound, rfl⟩ := hbind
    refine ⟨t, code, τ, hpath, rfl, hexec,
      (hagrees.path hpath hp).bind hunbound fun _ => ?_⟩
    refine ⟨d, w, hget, hreg, ?_, hheld, ?_⟩
    · rw [IR.Module.width?, hvalue]
      exact hw
    · have hle : w ≤ 64 := hheld.source.width ▸ d.storage.width_le
      rw [hd, BitVec.setWidth_setWidth_of_le x hle, BitVec.setWidth_eq]

end

end InstSelect.Lowering
