import InstSelect.Proofs.IntegerCode
import InstSelect.Proofs.Disciplines

/-!
# The code of memory instructions

Frame slots, loads, stores and element addresses. An element address is the longest code
that selection appends for one instruction, but it only ever writes fresh virtual
registers; `Quietly` says so of any stretch of selection, and composes.
-/

namespace InstSelect.Lowering

open IR (ValueId Inst Ty)
open Machine (Storage Operand OperandId Op Reg VReg Address Code Arena)

variable {α : Type} {env : Env} {s s' t : State} {n : Nat} {code : List Code}
  {src id base : OperandId} {st : Storage} {v gep : ValueId} {i : Inst}
  {address : Partial} {index : Option (OperandId × UInt8)} {k : Int64} {op : Op}
  {r : Reg} {size : UInt64} {ty : Ty}

/-! ## Quiet stretches -/

theorem Path.vregs_le (h : Path env s s' code) : s.vregs ≤ s'.vregs := by
  cases hc : s.current with
  | none =>
    rw [State.vregs, hc]
    exact Nat.zero_le _
  | some c =>
    obtain ⟨c', hc', hg⟩ := h.grown hc
    rw [State.vregs_eq hc, State.vregs_eq hc']
    exact hg.vregs

/-- Selection went from one state to another by instructions with a property. -/
def Through (env : Env) (K : Code → Prop) (s s' : State) : Prop :=
  ∃ code, Path env s s' code ∧ ∀ A : Arena, s'.Within A → ∀ c ∈ code, K c

namespace Through

variable {K : Code → Prop}

theorem of_path (h : Path env s s' []) : Through env K s s' := ⟨[], h, by simp⟩

theorem trans (h : Through env K s t) (h' : Through env K t s') : Through env K s s' := by
  obtain ⟨xs, hxs, qxs⟩ := h
  obtain ⟨ys, hys, qys⟩ := h'
  refine ⟨xs ++ ys, hxs.trans hys, fun A hA c hc => ?_⟩
  rcases List.mem_append.mp hc with hc | hc
  · exact qxs A (hys.within hA) c hc
  · exact qys A hA c hc

theorem vregs_le (h : Through env K s s') : s.vregs ≤ s'.vregs := by
  obtain ⟨code, hpath, -⟩ := h
  exact hpath.vregs_le

end Through

/-- By calm code. -/
abbrev Quietly (env : Env) (n : Nat) : State → State → Prop := Through env (·.Calm n)

/-- A fetch is quiet. -/
theorem Quietly.of_fetch {P : Operand → Operand → Prop} (hn : n ≤ s.vregs)
    (hpath : Path env s s' code)
    (hf : ∀ A : Arena, s'.Within A → Fetches A src id s.vregs code s'.vregs P) :
    Quietly env n s s' := by
  refine ⟨code, hpath, fun A hA c hc => ?_⟩
  obtain ⟨o, o', -, -, hfetch, -⟩ := hf A hA
  exact (hfetch.calm c hc).mono hn

/-- `id` names a virtual register numbered from `n` on. -/
def FreshVirt (n : Nat) (s : State) (id : OperandId) (st : Storage) : Prop :=
  ∃ r : VReg, n ≤ r.index.toNat ∧ r.index.toNat < s.vregs ∧
    ∀ A : Arena, s.Within A → A.get? id = some ⟨.virt r, st⟩

theorem FreshVirt.path (h : FreshVirt n s id st) (hp : Path env s s' code) :
    FreshVirt n s' id st := by
  obtain ⟨r, hr, hlt, hget⟩ := h
  exact ⟨r, hr, Nat.lt_of_lt_of_le hlt hp.vregs_le, fun A hA => hget A (hp.within hA)⟩

theorem FreshVirt.through {K : Code → Prop} (h : FreshVirt n s id st)
    (hs : Through env K s s') :
    FreshVirt n s' id st := by
  obtain ⟨code, hpath, -⟩ := hs
  exact h.path hpath

/-- Instructions with a property, from where the registers below `n` are there. -/
def through (env : Env) (n : Nat) (K : Code → Prop) : Discipline env where
  Starts s := n ≤ s.vregs
  Leads := Through env K
  refl s := .of_path (.refl s)
  trans := .trans
  goesOn hn h := Nat.le_trans hn h.vregs_le

/-- A step whose code is quiet, with what is known of its answer. -/
abbrev Quiets (env : Env) (n : Nat) (s : State) (x : LowerM α) (Q : α → State → Prop) :
    Prop :=
  Along (through env n (·.Calm n)) s x Q

/-- A step whose code is quiet, whatever it answers. -/
abbrev IsQuiet (env : Env) (n : Nat) (s : State) (x : LowerM α) : Prop :=
  Quiets env n s x fun _ _ => True

/-- A fresh virtual register. -/
theorem newVReg_quietly :
    Quiets env n s (newVReg st) fun id t => FreshVirt n t id st := by
  intro hn id t h
  have hle : n ≤ s.vregs := hn
  obtain ⟨r, hr, hvregs, hpath, hget⟩ := newVReg_adds h
  exact ⟨.of_path hpath, r, by omega, by omega, hget⟩

theorem imm_quietly : IsQuiet env n s (imm k st) :=
  fun _ _ _ h => ⟨.of_path (imm_adds h).path, trivial⟩

/-- An instruction that writes a late virtual register. -/
theorem emit_quietly {dst : OperandId} {rest : List OperandId}
    (hop : op.clobbersNothing = true) (hdst : FreshVirt n s dst st) :
    IsQuiet env n s (emit op (dst :: rest)) := by
  intro _ _ t h
  obtain ⟨r, hr, -, hget⟩ := hdst
  obtain ⟨os, hpath, -, -, hos⟩ := emit_path h
  refine ⟨⟨_, hpath, fun A hA c hc => ?_⟩, trivial⟩
  obtain rfl := List.mem_singleton.mp hc
  obtain ⟨x, xs, hx, -, rfl⟩ := List.forall₂_cons_left_iff.mp
    (Machine.Function.mapM_eq_some.mp (hos A hA))
  cases (hget A (hpath.within hA)).symm.trans hx
  exact Machine.calm_of_virt hop hr

/-- A fresh register and the instruction that writes it. -/
theorem fill_quietly {ids : List OperandId} (hop : op.clobbersNothing = true) :
    Quiets env n s (do
      let dst ← newVReg st
      emit op (dst :: ids)
      pure dst) fun id t => FreshVirt n t id st :=
  newVReg_quietly.bind fun _ _ _ hdst => (emit_quietly hop hdst).bind fun _ _ q _ =>
    .pure (hdst.through q)

theorem copyToVReg_quietly : IsQuiet env n s (copyToVReg src) := by
  intro hn _ _ h
  obtain ⟨code, hpath, hf⟩ := copyToVReg_fetch h
  exact ⟨Quietly.of_fetch hn hpath hf, trivial⟩

theorem intoRegister_quietly : IsQuiet env n s (intoRegister src) :=
  .read (.operand src) fun _ _ => .ite (fun _ => .pure trivial) fun _ =>
    copyToVReg_quietly

theorem aluSource_quietly : IsQuiet env n s (aluSource src) :=
  .read (.operand src) fun _ _ => .ite (fun _ => copyToVReg_quietly) fun _ =>
    .pure trivial

theorem resolve_quietly : IsQuiet env n s (resolve v) := by
  intro _ _ _ h
  obtain ⟨hpath, -⟩ := resolve_path h
  exact ⟨.of_path hpath, trivial⟩

theorem valueOperand_quietly : IsQuiet env n s (valueOperand v) :=
  resolve_quietly.bind fun _ _ _ _ => .read (.operand _) fun _ _ =>
    .ite (fun _ => (fill_quietly rfl).imp fun _ _ _ _ => trivial) fun _ => .pure trivial

theorem addressRegister_quietly : IsQuiet env n s (addressRegister v) :=
  valueOperand_quietly.bind fun _ _ _ _ => intoRegister_quietly

/-! ## Frame slots -/

theorem allocaCount_state (h : Runs (allocaCount i) env s k s') : s = s' := by
  unfold allocaCount at h
  split at h
  · exact (runs_pure.mp h).2
  · simp only [runs_bind, runs_sourceModule, runs_check] at h
    obtain ⟨_, _, ⟨rfl, rfl⟩, r, _, ⟨-, rfl⟩, h⟩ := h
    cases r with
    | some n => exact (runs_pure.mp h).2
    | none => exact (runs_check.mp h).2
  · exact (runs_check.mp h).2

/-- An `alloca` adds a slot and no code. -/
theorem lowerAlloca_adds (h : Runs (lowerAlloca i) env s id s') :
    ∃ allocated slot size align, i.ty = .ptr allocated ∧
      Adds env s s' id ⟨.slot slot size align, .ptr⟩ := by
  unfold lowerAlloca at h
  split at h
  · exact absurd (runs_check.mp h).1 violate_ne_ok
  · next allocated hty =>
    simp only [reserveObjects, runs_bind, runs_check, runs_checkWord] at h
    obtain ⟨k, _, hcount, _, _, ⟨-, rfl⟩, extent, _, ⟨-, rfl⟩, h⟩ := h
    obtain rfl := allocaCount_state hcount
    obtain ⟨slot, hadds⟩ := newSlot_adds h
    refine ⟨allocated, slot, _, _, ?_, hadds⟩
    cases hity : i.ty <;> simp_all [Ty.pointee?]

/-! ## Loads and stores -/

/-- A register operand that was read exists. -/
theorem exists_virt_of_regOf (h : Runs (regOf base) env s r s') :
    s = s' ∧ ∀ c q, s.current = some c → r = .virt q →
      ∃ o ∈ c.machine.operands, o.form = .virt q := by
  obtain ⟨o, ho, hreg⟩ := runs_regOf.mp h
  obtain ⟨c, hc, hget, rfl⟩ := runs_operand.mp ho
  refine ⟨rfl, fun c' q hc' hq => ?_⟩
  cases hc.symm.trans hc'
  refine ⟨o, Array.mem_of_getElem? hget, ?_⟩
  subst hq
  obtain ⟨form, st⟩ := o
  cases form <;> simp_all [Operand.reg?]

/-- The memory at the address in a register. -/
theorem memoryAt_adds (h : Runs (memoryAt base st) env s id s') :
    ∃ r, Adds env s s' id ⟨.mem (.ofBase r), st⟩ := by
  simp only [memoryAt, runs_bind] at h
  obtain ⟨r, _, hr, h⟩ := h
  obtain ⟨rfl, hexists⟩ := exists_virt_of_regOf hr
  refine ⟨r, mem_adds h fun c q hc hq => ?_⟩
  rcases List.mem_cons.mp hq with hq | hq
  · exact hexists c q hc hq.symm
  · cases hq

theorem lowerLoad_quietly :
    Quiets env n s (lowerLoad i) fun id t => ∃ st, byValueStorage i.ty "load" = .ok st ∧
      FreshVirt n t id st := by
  refine .check fun st hst => .check fun _ _ =>
    addressRegister_quietly.bind fun address s1 _ _ => ?_
  have hmem : IsQuiet env n s1 (memoryAt address st) := by
    intro _ _ _ h
    obtain ⟨base, hadds⟩ := memoryAt_adds h
    exact ⟨.of_path hadds.path, trivial⟩
  exact hmem.bind fun _ _ _ _ => (fill_quietly rfl).imp fun _ _ _ hdst => ⟨st, hst, hdst⟩

/-! ## Element addresses -/

/-- The register that a partial address or an index is in. -/
def State.InRegister (s : State) (id : OperandId) (r : Reg) : Prop :=
  ∀ A : Arena, s.Within A → ∃ o, A.get? id = some o ∧ o.reg? = some r

theorem inRegister_of_regOf (h : Runs (regOf base) env s r s') :
    s = s' ∧ s.InRegister base r := by
  obtain ⟨o, ho, hreg⟩ := runs_regOf.mp h
  obtain ⟨c, hc, -, rfl⟩ := runs_operand.mp ho
  exact ⟨rfl, fun A hA => ⟨o, operand_get ho hA, hreg⟩⟩

/--
The memory reference that stands for a partial address, with an index if one is given.
-/
def Partial.Reference (s : State) (address : Partial) : Option (OperandId × UInt8) →
    Address → Prop
  | none, a =>
    ∃ r, s.InRegister address.base r ∧ a = (Address.ofBase r).withDisp address.disp
  | some (index, scale), a => ∃ r i, s.InRegister address.base r ∧ s.InRegister index i ∧
      a = ⟨r, some i, scale, address.disp⟩

theorem Partial.Reference.path {a : Address} (h : address.Reference s index a)
    (hp : Path env s s' code) :
    address.Reference s' index a := by
  cases index with
  | none =>
    obtain ⟨r, hr, ha⟩ := h
    exact ⟨r, fun A hA => hr A (hp.within hA), ha⟩
  | some pair =>
    obtain ⟨r, i, hr, hi, ha⟩ := h
    exact ⟨r, i, fun A hA => hr A (hp.within hA), fun A hA => hi A (hp.within hA), ha⟩

theorem memoryOperand_adds (h : Runs (memoryOperand address index) env s id s') :
    ∃ a, address.Reference s index a ∧ Adds env s s' id ⟨.mem a, .ptr⟩ := by
  simp only [memoryOperand, runs_bind] at h
  obtain ⟨r, _, hr, h⟩ := h
  obtain ⟨rfl, hbase⟩ := exists_virt_of_regOf hr
  obtain ⟨-, hreg⟩ := inRegister_of_regOf hr
  cases index with
  | none =>
    refine ⟨_, ⟨r, hreg, rfl⟩, mem_adds h fun c q hc hq => ?_⟩
    rcases List.mem_cons.mp hq with hq | hq
    · exact hbase c q hc hq.symm
    · cases hq
  | some pair =>
    obtain ⟨index, scale⟩ := pair
    simp only [runs_bind, runs_storage, runs_check] at h
    obtain ⟨_, _, ⟨o, ho, rfl⟩, _, _, ⟨-, rfl⟩, x, _, hx, a, _, ⟨ha, rfl⟩, h⟩ := h
    obtain ⟨c, hc, _, rfl⟩ := runs_operand.mp ho
    obtain ⟨rfl, hindex⟩ := exists_virt_of_regOf hx
    obtain ⟨-, hreg'⟩ := inRegister_of_regOf hx
    obtain ⟨_, -, hpure⟩ := bind_eq_ok.mp ha
    obtain rfl := pure_eq_ok.mp hpure
    refine ⟨_, ⟨r, x, hreg, hreg', rfl⟩, mem_adds h fun c q hc hq => ?_⟩
    rcases List.mem_cons.mp hq with hq | hq
    · exact hbase c q hc hq.symm
    · exact hindex c q hc (List.mem_singleton.mp hq).symm

theorem memoryOperand_path (h : Runs (memoryOperand address index) env s id s') :
    Path env s s' [] ∧ s'.vregs = s.vregs := by
  obtain ⟨_, -, hadds⟩ := memoryOperand_adds h
  exact ⟨hadds.path, hadds.vregs⟩

theorem loadAddress_quietly :
    Quiets env n s (loadAddress address index) fun id t => FreshVirt n t id .ptr := by
  have hmem : ∀ t, IsQuiet env n t (memoryOperand address index) :=
    fun _ _ _ _ h => ⟨.of_path (memoryOperand_path h).1, trivial⟩
  exact newVReg_quietly.bind fun _ _ _ hdst => (hmem _).bind fun _ _ q2 _ =>
    (emit_quietly rfl (hdst.through q2)).bind fun _ _ q3 _ =>
      .pure ((hdst.through q2).through q3)

theorem addOffset_quietly {offset : Int64} :
    IsQuiet env n s (addOffset address offset) := by
  have hflush : IsQuiet env n s (flush address) :=
    .ite (fun _ => .pure trivial) fun _ => loadAddress_quietly.imp fun _ _ _ _ => trivial
  refine .checkWord fun _ _ => ?_
  split
  · exact .pure trivial
  · refine hflush.bind fun _ _ _ _ => ?_
    split
    · exact .pure trivial
    · exact imm_quietly.bind fun _ _ _ _ => copyToVReg_quietly.bind fun _ _ _ _ =>
        loadAddress_quietly.bind fun _ _ _ _ => .pure trivial

theorem indexRegister_quietly {index : ValueId} : IsQuiet env n s (indexRegister index) :=
  .read (.isSigned _) fun signed _ => valueOperand_quietly.bind fun _ _ _ _ =>
    intoRegister_quietly.bind fun _ _ _ _ =>
    .read (.storage _) fun _ _ => .ite (fun _ => .pure trivial) fun _ =>
      (fill_quietly (Machine.clobbersNothing_wideningOp signed)).imp fun _ _ _ _ =>
        trivial

theorem addProduct_quietly {index : OperandId} :
    IsQuiet env n s (addProduct address index size) :=
  newVReg_quietly.bind fun _ _ _ hproduct =>
    (emit_quietly rfl hproduct).bind fun _ _ q2 _ =>
    imm_quietly.bind fun _ _ q3 _ => copyToVReg_quietly.bind fun _ _ q4 _ =>
    (emit_quietly rfl (((hproduct.through q2).through q3).through q4)).bind fun _ _ _ _ =>
    newVReg_quietly.bind fun _ _ _ hsum => (emit_quietly rfl hsum).bind fun _ _ q7 _ =>
    (emit_quietly rfl (hsum.through q7)).bind fun _ _ _ _ => .pure trivial

theorem addScaledIndex_quietly {index : ValueId} :
    IsQuiet env n s (addScaledIndex address index size) := by
  refine indexRegister_quietly.bind fun _ _ _ _ => ?_
  split
  · exact loadAddress_quietly.bind fun _ _ _ _ => .pure trivial
  · exact addProduct_quietly

theorem stepElement_quietly {element : Ty} {index : ValueId} :
    IsQuiet env n s (stepElement gep address element index) := by
  refine .checkWord fun _ _ => .read .sourceModule fun _ _ => .check fun found _ => ?_
  cases found with
  | some step => exact .check fun _ _ => addOffset_quietly
  | none => exact addScaledIndex_quietly

theorem stepInto_quietly {index : ValueId} :
    IsQuiet env n s (stepInto gep address ty index) := by
  unfold stepInto
  split
  · refine .read .sourceModule fun _ _ => .check fun found _ => ?_
    cases found with
    | none => exact .refuse
    | some field =>
      exact .check fun _ _ => .checkWord fun _ _ => addOffset_quietly.bind fun _ _ _ _ =>
        .pure trivial
  · exact stepElement_quietly.bind fun _ _ _ _ => .pure trivial
  · exact stepElement_quietly.bind fun _ _ _ _ => .pure trivial
  · exact .refuse

theorem walk_quietly {indices : List ValueId} :
    IsQuiet env n s (walk gep indices address ty) := by
  induction indices generalizing s address ty with
  | nil => exact .pure trivial
  | cons index rest ih => exact stepInto_quietly.bind fun _ _ _ _ => ih

theorem lowerGep_quiets :
    Quiets env n s (lowerGep i) fun id t => FreshVirt n t id .ptr := by
  unfold lowerGep
  split
  · exact .refuse
  · exact addressRegister_quietly.bind fun _ _ _ _ => .read .sourceModule fun _ _ =>
      .check fun _ _ =>
      walk_quietly.bind fun _ _ _ _ => loadAddress_quietly

theorem lowerGep_quietly (h : Runs (lowerGep i) env s id s') :
    Quietly env s.vregs s s' ∧ FreshVirt s.vregs s' id .ptr :=
  lowerGep_quiets (Nat.le_refl s.vregs) h

end InstSelect.Lowering
