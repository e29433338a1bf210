import InstSelect.Proofs.Growth
import InstSelect.Proofs.Frames

/-!
# Bringing operands into shape

The elementary steps and the operand helpers of selection, each as a path with the code it
appends. A helper either keeps an operand or copies its value into a fresh virtual
register; `Fetch` describes both. What an id stands for is said about the finished arena.
-/

namespace InstSelect.Lowering

open IR (ValueId Constant)
open Machine (Storage Operand OperandId Op PhysReg VReg Address Form Arena)

variable {env : Env} {s s' t : State} {c : Current} {st : Storage} {id : OperandId}
  {v : ValueId} {A : Arena} {ty : IR.Ty}

namespace State

/-- Number of virtual registers of the function being built. -/
def vregs (s : State) : Nat :=
  match s.current with
  | some c => c.machine.nextVReg.toNat
  | none => 0

theorem vregs_eq (hc : s.current = some c) : s.vregs = c.machine.nextVReg.toNat := by
  rw [vregs, hc]

end State

/-! ## Elementary steps -/

/-- One operand was added that is no virtual register. -/
structure Adds (env : Env) (s s' : State) (id : OperandId) (o : Operand) : Prop where
  path : Path env s s' []
  vregs : s'.vregs = s.vregs
  values : s'.values = s.values
  get : ∀ A : Arena, s'.Within A → A.get? id = some o

theorem get?_nextId {form : Form}
    (hA : (s.withMachine c (c.machine.extend form st)).Within A) :
    A.get? c.machine.nextId = some ⟨form, st⟩ :=
  (Machine.Function.names_extend c.machine form st).get? (hA _ rfl)

theorem physReg_adds {reg : PhysReg} (h : Runs (physReg reg st) env s id s') :
    Adds env s s' id ⟨.phys reg, st⟩ := by
  obtain ⟨c, hc, hopen, -, rfl, rfl⟩ := runs_physReg.mp h
  exact ⟨.step (.operand hc hopen trivial), (State.vregs_eq hc).symm, rfl,
    fun _ => get?_nextId⟩

theorem imm_adds {n : Int64} (h : Runs (imm n st) env s id s') :
    Adds env s s' id ⟨.imm n, st⟩ := by
  obtain ⟨c, hc, hopen, -, rfl, rfl⟩ := runs_imm.mp h
  exact ⟨.step (.operand hc hopen trivial), (State.vregs_eq hc).symm, rfl,
    fun _ => get?_nextId⟩

theorem mem_adds {a : Address} (h : Runs (mem a st) env s id s')
    (ha : ∀ c r, s.current = some c → .virt r ∈ a.registers →
      ∃ o ∈ c.machine.operands, o.form = .virt r) : Adds env s s' id ⟨.mem a, st⟩ := by
  obtain ⟨c, hc, hopen, -, rfl, rfl⟩ := runs_mem.mp h
  exact ⟨.step (.operand hc hopen fun r hr => ha c r hc hr),
    (State.vregs_eq hc).symm, rfl, fun _ => get?_nextId⟩

theorem newSlot_adds {size : UInt64} {align : UInt32}
    (h : Runs (newSlot size align) env s id s') :
    ∃ slot, Adds env s s' id ⟨.slot slot size align, .ptr⟩ := by
  obtain ⟨c, hc, hopen, -, hlt, rfl, rfl⟩ := runs_newSlot.mp h
  exact ⟨_, .step (.operand hc hopen ⟨rfl, hlt⟩), (State.vregs_eq hc).symm, rfl,
    fun _ => get?_nextId⟩

/-- A fresh virtual register, under the next number. -/
theorem newVReg_adds (h : Runs (newVReg st) env s id s') :
    ∃ r : VReg, r.index.toNat = s.vregs ∧ s'.vregs = s.vregs + 1 ∧ Path env s s' [] ∧
      ∀ A : Arena, s'.Within A → A.get? id = some ⟨.virt r, st⟩ := by
  obtain ⟨c, hc, hopen, -, hlt, rfl, rfl⟩ := runs_newVReg.mp h
  refine ⟨⟨c.machine.nextVReg⟩, (State.vregs_eq hc).symm, ?_,
    .step (.operand hc hopen ⟨rfl, hlt⟩), fun _ => get?_nextId⟩
  rw [State.vregs_eq hc]
  show (c.machine.nextVReg + 1).toNat = _
  rw [UInt32.toNat_add, UInt32.toNat_one]
  omega

/-- Code is appended with the operands that the arena has under the given ids. -/
theorem emit_path {op : Op} {ids : List OperandId} {u : Unit}
    (h : Runs (emit op ids) env s u s') :
    ∃ os, Path env s s' [⟨op, os⟩] ∧ s'.vregs = s.vregs ∧ op.accepts os = true ∧
      ∀ A : Arena, s'.Within A → ids.mapM A.get? = some os := by
  obtain ⟨c, id, b, os, hc, hblock, hopen, hos, hacc, hb, -, rfl⟩ := runs_emit.mp h
  refine ⟨os, .step (.inst hc hblock hos hacc hb), (State.vregs_eq hc).symm, hacc,
    fun A hA => ?_⟩
  have hwithin := hA _ rfl
  exact Machine.Function.mapM_eq_some.mpr (hos.imp fun id o ho => hwithin.get? ho)

/-- The operand that was read is the arena's. -/
theorem operand_get {o : Operand} (h : Runs (operand id) env s o s') (hA : s.Within A) :
    A.get? id = some o := by
  obtain ⟨c, hc, ho, rfl⟩ := runs_operand.mp h
  exact (hA c hc).get? ho

/-! ## Values that need no code -/

namespace Leaf

/-- What a leaf is stays as long as header and operands do and blocks are only added. -/
theorem mono {c' : Current} (h : Leaf env s c v id) (hsource : c'.source = c.source)
    (hargs : c'.machine.args = c.machine.args)
    (hoperands : c.machine.operands.toList <+: c'.machine.operands.toList)
    (hblocks : ∀ b mb, s.blocks.find? b = some mb → s'.blocks.find? b = some mb) :
    Leaf env s' c' v id := by
  cases h with
  | argument ty index value arg =>
    refine .argument ty index (by rw [hsource]; exact value) ?_
    rw [Machine.Function.arg?, hargs]
    exact arg
  | constant ty k n st value word storage names =>
    exact .constant ty k n st value word storage (names.mono hoperands)
  | function ty g f name value function symbol names =>
    exact .function ty g f name value function symbol (names.mono hoperands)
  | global ty g data value global names =>
    exact .global ty g data value global (names.mono hoperands)
  | block ty b mb value block names =>
    exact .block ty b mb value (hblocks b mb block) (names.mono hoperands)

end Leaf

theorem valueTy_eq_ok {m : IR.Module} :
    m.valueTy v = .ok ty ↔ ∃ kind, m.value v = .ok ⟨ty, kind⟩ := by
  rw [IR.Module.valueTy, bind_eq_ok]
  constructor
  · rintro ⟨⟨ty', kind⟩, hv, hty⟩
    cases hty
    exact ⟨kind, hv⟩
  · rintro ⟨kind, hv⟩
    exact ⟨_, hv, rfl⟩

/-- A scalar constant becomes an immediate at the class of its type. -/
theorem constantOperand_adds {k : Constant} (h : Runs (constantOperand v k) env s id s') :
    ∃ ty kind n st, env.module.value v = .ok ⟨ty, kind⟩ ∧ constantWord? k = some n ∧
      storageOf ty = .ok st ∧ Runs (imm n st) env s id s' := by
  simp only [constantOperand, runs_bind, runs_sourceModule, runs_check,
    valueTy_eq_ok] at h
  obtain ⟨_, _, ⟨rfl, rfl⟩, ty, _, ⟨⟨kind, hv⟩, rfl⟩, st, _, ⟨hst, rfl⟩, h⟩ := h
  cases k with
  | int n => exact ⟨ty, kind, n, st, hv, rfl, hst, h⟩
  | null | zero | undef => exact ⟨ty, kind, 0, st, hv, rfl, hst, h⟩
  | _ => simp at h

theorem argumentOperand_leaf {func : IR.FuncId} {index : UInt32}
    (hv : env.module.value v = .ok ⟨ty, .argument func index⟩)
    (h : Runs (argumentOperand v func index) env s id s') :
    s = s' ∧ ∃ c, s.current = some c ∧ Leaf env s c v id := by
  simp only [argumentOperand, runs_bind, runs_get] at h
  obtain ⟨_, _, ⟨rfl, rfl⟩, h⟩ := h
  split at h
  · next c hc =>
    split at h
    · next hsource =>
      split at h
      · next id' harg =>
        obtain ⟨rfl, rfl⟩ := runs_pure.mp h
        subst hsource
        exact ⟨rfl, c, hc, .argument ty index hv harg⟩
      · exact absurd h not_runs_violateIn
    · exact absurd h not_runs_violateIn
  · exact absurd h not_runs_violateIn

/-- Creating the block of a source block. -/
theorem blockFor_path {b : IR.BlockId} {id : Machine.BlockId}
    (h : Runs (blockFor b) env s id s') :
    Path env s s' [] ∧ s'.vregs = s.vregs ∧ s'.values = s.values ∧
      s'.blocks.find? b = some id := by
  rcases runs_blockFor.mp h with ⟨hb, rfl⟩ | ⟨c, data, hnone, hdata, hc, hsrc, hopen, -,
    rfl, rfl⟩
  · exact ⟨.refl s, rfl, rfl, hb⟩
  · exact ⟨.step (.block hc hnone hdata hsrc), (State.vregs_eq hc).symm, rfl,
      Bindings.find?_insert_self _ _ _⟩

/-- A new operand for a value is the operand of a leaf. -/
theorem freshOperand_path (h : Runs (freshOperand v) env s id s') :
    Path env s s' [] ∧ s'.vregs = s.vregs ∧ s'.values = s.values ∧
      ∃ c, s'.current = some c ∧ Leaf env s' c v id := by
  simp only [freshOperand, runs_bind, runs_sourceModule, runs_check] at h
  obtain ⟨_, _, ⟨rfl, rfl⟩, ⟨ty, kind⟩, _, ⟨hv, rfl⟩, h⟩ := h
  cases kind with
  | instruction inst => exact absurd h not_runs_violateIn
  | argument func index =>
    obtain ⟨rfl, hleaf⟩ := argumentOperand_leaf hv h
    exact ⟨.refl s, rfl, rfl, hleaf⟩
  | constant k =>
    obtain ⟨ty', kind', n, st, hv', hword, hst, himm⟩ := constantOperand_adds h
    cases hv.symm.trans hv'
    obtain ⟨c, hc, hopen, -, rfl, rfl⟩ := runs_imm.mp himm
    exact ⟨(imm_adds himm).path, (imm_adds himm).vregs, rfl, _, rfl,
      .constant ty k n st hv hword hst (Machine.Function.names_extend _ _ _)⟩
  | function g =>
    simp only [runs_bind, runs_check, runs_theAbi] at h
    obtain ⟨f, _, ⟨hf, rfl⟩, _, _, ⟨rfl, rfl⟩, name, _, ⟨hname, rfl⟩, h⟩ := h
    obtain ⟨c, hc, hopen, -, rfl, rfl⟩ := runs_symbol.mp h
    exact ⟨.step (.operand hc hopen trivial), (State.vregs_eq hc).symm, rfl, _, rfl,
      .function ty g f name hv hf hname (Machine.Function.names_extend _ _ _)⟩
  | global g =>
    simp only [runs_bind, runs_check] at h
    obtain ⟨data, _, ⟨hdata, rfl⟩, h⟩ := h
    obtain ⟨c, hc, hopen, -, rfl, rfl⟩ := runs_symbol.mp h
    exact ⟨.step (.operand hc hopen trivial), (State.vregs_eq hc).symm, rfl, _, rfl,
      .global ty g data hv hdata (Machine.Function.names_extend _ _ _)⟩
  | block b =>
    simp only [runs_bind] at h
    obtain ⟨mb, t, hblock, h⟩ := h
    obtain ⟨hpath, hvregs, hvalues, hfind⟩ := blockFor_path hblock
    obtain ⟨c, hc, hlt, hopen, -, rfl, rfl⟩ := runs_blockRef.mp h
    refine ⟨hpath.then (.step (.operand hc hopen hlt)), ?_, hvalues, _, rfl,
      .block ty b mb hv hfind (Machine.Function.names_extend _ _ _)⟩
    rw [← hvregs]
    exact (State.vregs_eq hc).symm

/-- Resolving a value binds it and emits nothing. -/
theorem resolve_path (h : Runs (resolve v) env s id s') :
    Path env s s' [] ∧ s'.vregs = s.vregs ∧ s'.values.find? v = some id := by
  simp only [resolve, runs_bind, runs_lookupValue] at h
  obtain ⟨r, _, ⟨hr, rfl⟩, h⟩ := h
  cases r with
  | some id' =>
    obtain ⟨rfl, rfl⟩ := runs_pure.mp h
    exact ⟨.refl s, rfl, hr⟩
  | none =>
    simp only [runs_bind, runs_bindValue, runs_pure] at h
    obtain ⟨id', t, hfresh, _, _, ⟨hunbound, rfl⟩, rfl, rfl⟩ := h
    obtain ⟨hpath, hvregs, -, c, hc, hleaf⟩ := freshOperand_path hfresh
    exact ⟨hpath.then (.step (.value hc hunbound hleaf)), hvregs,
      Bindings.find?_insert_self _ _ _⟩

/-! ## Fetching -/

end InstSelect.Lowering

namespace InstSelect.Machine

namespace Operand

/-- The operation that copies an operand's value. -/
def copyOp (o : Operand) : Op := if o.needsAddress then .lea else .mov

theorem clobbersNothing_copyOp (o : Operand) : o.copyOp.clobbersNothing = true := by
  unfold copyOp
  split <;> rfl

/-- The register that a copy of an operand's value is made to. -/
def inRegister (o : Operand) (r : VReg) : Operand :=
  ⟨.virt r, if o.needsAddress then .ptr else o.storage⟩

end Operand

/--
`Fetch n o o' code m`: `code` makes the value of `o` available in `o'`, with the fresh
virtual registers from `n` to `m`.
-/
inductive Fetch (n : Nat) (o : Operand) : Operand → List Code → Nat → Prop
  | keep : Fetch n o o [] n
  | copy (r : VReg) (fresh : r.index.toNat = n) :
      Fetch n o (o.inRegister r) [⟨o.copyOp, [o.inRegister r, o]⟩] (n + 1)

/-! ## What fetching computes -/

/-- The value that an operand stands for: an address where it names a slot or a symbol. -/
def Host.value (h : Host) (σ : Cpu) (o : Operand) : BitVec 64 :=
  if o.needsAddress then h.addressOf σ o else h.read σ o

/-- An operand whose value lies in no memory and in no virtual register from `n` on. -/
def Operand.Steady (n : Nat) (o : Operand) : Prop :=
  match o.form with
  | .virt r => r.index.toNat < n
  | .mem _ => False
  | _ => True

variable {h : Host} {σ τ : Cpu} {n m : Nat} {o o' : Operand} {code : List Code}

theorem Operand.Steady.mono (ho : o.Steady n) (hle : n ≤ m) : o.Steady m := by
  obtain ⟨form, st⟩ := o
  cases form with
  | virt r => exact Nat.lt_of_lt_of_le ho hle
  | _ => exact ho

/-- Steady operands keep their value where registers are kept. -/
theorem Keeps.value (hk : Keeps n σ τ) (ho : o.Steady n) : h.value τ o = h.value σ o := by
  obtain ⟨form, st⟩ := o
  cases form with
  | phys r => exact congrFun hk.phys r
  | virt r => exact hk.virt r ho
  | mem a => exact ho.elim
  | _ => rfl

/-- A copy writes the value. -/
theorem step_copy (d o : Operand) :
    h.step σ ⟨o.copyOp, [d, o]⟩ = some (.falls (h.write σ d (h.value σ o))) := by
  unfold Operand.copyOp Host.value
  cases o.needsAddress <;> rfl

/-- A virtual register holds what was written, at the width of the write. -/
theorem read_write_virt (r : VReg) (st : Storage) (x : BitVec 64) :
    ((h.write σ ⟨.virt r, st⟩ x).virt r).setWidth st.width = x.setWidth st.width := by
  simp only [Host.write, Cpu.setVirt, if_pos]
  exact setWidth_merge st.width_le _ _

namespace Fetch

theorem le (hf : Fetch n o o' code m) : n ≤ m := by
  cases hf with
  | keep => exact Nat.le_refl n
  | copy => exact Nat.le_succ n

theorem calm (hf : Fetch n o o' code m) : ∀ c ∈ code, c.Calm n := by
  cases hf with
  | keep => simp
  | copy r hr =>
    intro c hc
    obtain rfl := List.mem_singleton.mp hc
    exact calm_of_virt o.clobbersNothing_copyOp (Nat.le_of_eq hr.symm)

theorem quiet (hf : Fetch n o o' code m) : ∀ c ∈ code, c.Quiet n :=
  fun c hc => (hf.calm c hc).quiet

theorem steady (hf : Fetch n o o' code m) (ho : o.Steady n) : o'.Steady m := by
  cases hf with
  | keep => exact ho
  | copy r hr => exact Nat.lt_succ_of_le (Nat.le_of_eq hr)

theorem width (hf : Fetch n o o' code m) (haddr : o.needsAddress = true → o.width = 64) :
    o'.width = o.width := by
  cases hf with
  | keep => rfl
  | copy r hr =>
    show (if o.needsAddress then Storage.ptr else o.storage).width = o.storage.width
    split
    · next h => exact (haddr h).symm
    · rfl

/-- Fetching makes the value available and touches neither memory nor flags. -/
theorem run (hf : Fetch n o o' code m) (h : Host) (σ : Cpu) :
    ∃ τ, h.run code σ = some (.falls τ) ∧ Keeps n σ τ ∧ τ.memory = σ.memory ∧
      τ.status = σ.status ∧
        (h.value τ o').setWidth o'.width = (h.value σ o).setWidth o'.width := by
  cases hf with
  | keep => exact ⟨σ, rfl, Keeps.refl n σ, rfl, rfl, rfl⟩
  | copy r hr =>
    have hrun :=
      (Host.run_singleton (h := h)).trans (step_copy (σ := σ) (o.inRegister r) o)
    exact ⟨_, hrun, Keeps.of_run (quiet (.copy r hr)) hrun, rfl, rfl,
      read_write_virt r _ _⟩

end Fetch

end InstSelect.Machine

namespace InstSelect.Lowering

open IR (ValueId)
open Machine (Storage Operand OperandId Op VReg Code Arena Fetch)

variable {env : Env} {s s' t : State} {src id : OperandId} {α β : Type} {u : Unit}
  {A : Arena} {o : Operand} {n : Nat} {P : Operand → Operand → Prop} {v : ValueId}

/--
The arena's operands under two ids, and the code that brings the one into the other.
-/
def Fetches (A : Arena) (src id : OperandId) (n : Nat) (code : List Code) (m : Nat)
    (P : Operand → Operand → Prop) : Prop :=
  ∃ o o', A.get? src = some o ∧ A.get? id = some o' ∧ Fetch n o o' code m ∧ P o o'

theorem mapM_single {f : α → Option β} {a : α} {ys : List β} :
    [a].mapM f = some ys ↔ ∃ x, f a = some x ∧ ys = [x] := by
  simp only [Machine.Function.mapM_eq_some, List.forall₂_cons_left_iff,
    List.forall₂_nil_left_iff]
  constructor
  · rintro ⟨x, _, hx, rfl, rfl⟩
    exact ⟨x, hx, rfl⟩
  · rintro ⟨x, hx, rfl⟩
    exact ⟨x, _, hx, rfl, rfl⟩

theorem mapM_pair {f : α → Option β} {a b : α} {ys : List β} :
    [a, b].mapM f = some ys ↔ ∃ x y, f a = some x ∧ f b = some y ∧ ys = [x, y] := by
  simp only [Machine.Function.mapM_eq_some, List.forall₂_cons_left_iff,
    List.forall₂_nil_left_iff]
  constructor
  · rintro ⟨x, _, hx, ⟨y, _, hy, rfl, rfl⟩, rfl⟩
    exact ⟨x, y, hx, hy, rfl⟩
  · rintro ⟨x, y, hx, hy, rfl⟩
    exact ⟨x, _, hx, ⟨y, _, hy, rfl, rfl⟩, rfl⟩

/-- A new register, and an instruction that computes it from one operand. -/
theorem fill_path {st : Storage} {op : Op} (hnew : Runs (newVReg st) env s id t)
    (hemit : Runs (emit op [id, src]) env t u s') :
    ∃ (r : VReg) (code : List Code), r.index.toNat = s.vregs ∧ s'.vregs = s.vregs + 1 ∧
      Path env s s' code ∧
      ∀ A : Arena, s'.Within A →
        ∃ o, A.get? src = some o ∧ A.get? id = some ⟨.virt r, st⟩ ∧
        code = [⟨op, [⟨.virt r, st⟩, o]⟩] := by
  obtain ⟨r, hr, hvregs, hpath, hget⟩ := newVReg_adds hnew
  obtain ⟨os, hpath', hvregs', -, hos⟩ := emit_path hemit
  refine ⟨r, _, hr, hvregs'.trans hvregs, hpath.after hpath', fun A hA => ?_⟩
  obtain ⟨d, o, hd, ho, rfl⟩ := mapM_pair.mp (hos A hA)
  cases (hget A (hpath'.within hA)).symm.trans hd
  exact ⟨o, ho, hd, rfl⟩

/-- A copy into a given place: an address where the source needs one, else a move. -/
theorem materialize_path {dst : OperandId} (h : Runs (materialize dst src) env s u s') :
    ∃ code, Path env s s' code ∧ s'.vregs = s.vregs ∧ ∀ A : Arena, s'.Within A →
      ∃ d o, A.get? dst = some d ∧ A.get? src = some o ∧ code = [⟨o.copyOp, [d, o]⟩] := by
  simp only [materialize, copyOp, runs_bind, runs_pure] at h
  obtain ⟨_, _, ⟨o, _, ho, rfl, rfl⟩, h⟩ := h
  obtain ⟨c, hc, _, rfl⟩ := runs_operand.mp ho
  obtain ⟨os, hpath, hvregs, -, hos⟩ := emit_path h
  refine ⟨_, hpath, hvregs, fun A hA => ?_⟩
  obtain ⟨d, o', hd, ho', rfl⟩ := mapM_pair.mp (hos A hA)
  cases (operand_get ho (hpath.within hA)).symm.trans ho'
  exact ⟨d, o, hd, ho', rfl⟩

/-- A copy in a fresh virtual register. -/
theorem copyToVReg_fetch (h : Runs (copyToVReg src) env s id s') :
    ∃ code, Path env s s' code ∧ ∀ A : Arena, s'.Within A →
      Fetches A src id s.vregs code s'.vregs fun o o' => ∃ r, o' = o.inRegister r := by
  simp only [copyToVReg, runs_bind, runs_pure] at h
  obtain ⟨o, _, ho, dst, t, hdst, _, _, hcopy, rfl, rfl⟩ := h
  obtain ⟨c, hc, hget, rfl⟩ := runs_operand.mp ho
  obtain ⟨r, hr, hvregs, hpath, hdst'⟩ := newVReg_adds hdst
  obtain ⟨code, hpath', hvregs', hcode⟩ := materialize_path hcopy
  refine ⟨code, hpath.after hpath', fun A hA => ?_⟩
  have ht := hpath'.within hA
  obtain ⟨d, o', hd, ho', rfl⟩ := hcode A hA
  cases (operand_get ho (hpath.within ht)).symm.trans ho'
  cases (hdst' A ht).symm.trans hd
  rw [hvregs', hvregs]
  exact ⟨o, o.inRegister r, ho', hd, .copy r hr, r, rfl⟩

/-- An operand that is kept fetches itself. -/
theorem Fetches.keep (ho : A.get? id = some o) (hP : P o o) :
    Fetches A id id n [] n P :=
  ⟨o, o, ho, ho, .keep, hP⟩

theorem Fetches.imp {m : Nat} {code : List Code} {Q : Operand → Operand → Prop}
    (h : Fetches A src id n code m P) (hPQ : ∀ o o', P o o' → Q o o') :
    Fetches A src id n code m Q := by
  obtain ⟨o, o', ho, ho', hf, hp⟩ := h
  exact ⟨o, o', ho, ho', hf, hPQ o o' hp⟩

/-- The common shape of the helpers: by a test on the operand, it is kept or copied. -/
theorem keepOrCopy_fetch {keep : Bool} (ho : Runs (operand src) env s o s)
    (h : Runs (if keep then pure src else copyToVReg src) env s id s') :
    ∃ code, Path env s s' code ∧ ∀ A : Arena, s'.Within A →
      Fetches A src id s.vregs code s'.vregs fun p p' =>
        p = o ∧ if keep then p' = p else ∃ r, p' = p.inRegister r := by
  cases keep with
  | true =>
    obtain ⟨rfl, rfl⟩ := runs_pure.mp h
    exact ⟨[], .refl s, fun A hA => .keep (operand_get ho hA) ⟨rfl, rfl⟩⟩
  | false =>
    obtain ⟨code, hpath, hf⟩ := copyToVReg_fetch h
    refine ⟨code, hpath, fun A hA => ?_⟩
    obtain ⟨p, p', hp, hp', hfetch, hcopy⟩ := hf A hA
    cases (operand_get ho (hpath.within hA)).symm.trans hp
    exact ⟨o, p', hp, hp', hfetch, rfl, hcopy⟩

theorem intoRegister_fetch (h : Runs (intoRegister src) env s id s') :
    ∃ code, Path env s s' code ∧ ∀ A : Arena, s'.Within A →
      Fetches A src id s.vregs code s'.vregs fun _ o' => o'.isRegister = true := by
  simp only [intoRegister, runs_bind] at h
  obtain ⟨o, _, ho, h⟩ := h
  obtain ⟨c, hc, hget, rfl⟩ := runs_operand.mp ho
  obtain ⟨code, hpath, hf⟩ := keepOrCopy_fetch ho h
  refine ⟨code, hpath, fun A hA => (hf A hA).imp ?_⟩
  rintro p p' ⟨rfl, hp'⟩
  split at hp'
  · next hreg => rw [hp', hreg]
  · obtain ⟨r, rfl⟩ := hp'
    rfl

/-- A source for arithmetic: no immediate beyond 32 bits. -/
theorem aluSource_fetch (h : Runs (aluSource src) env s id s') :
    ∃ code, Path env s s' code ∧ ∀ A : Arena, s'.Within A →
      Fetches A src id s.vregs code s'.vregs fun o o' =>
        (o'.isImm = true → o'.isImm32 = true) ∧ (o' = o ∨ o'.isRegister = true) := by
  simp only [aluSource, runs_bind] at h
  obtain ⟨o, _, ho, h⟩ := h
  obtain ⟨c, hc, hget, rfl⟩ := runs_operand.mp ho
  have h' : Runs (if !(o.isImm && !o.isImm32) then pure src else copyToVReg src) env s
      id s' := by
    cases hwide : o.isImm && !o.isImm32 <;> simpa [hwide] using h
  obtain ⟨code, hpath, hf⟩ := keepOrCopy_fetch ho h'
  refine ⟨code, hpath, fun A hA => (hf A hA).imp ?_⟩
  rintro p p' ⟨rfl, hp'⟩
  split at hp'
  · next hkeep =>
    subst hp'
    refine ⟨fun himm => ?_, Or.inl rfl⟩
    simpa [himm] using hkeep
  · obtain ⟨r, rfl⟩ := hp'
    exact ⟨fun himm => (by cases himm), Or.inr rfl⟩

/-- An operand that carries the value itself. -/
theorem valueOperand_fetch (h : Runs (valueOperand v) env s id s') :
    ∃ root code, Path env s s' code ∧ s'.values.find? v = some root ∧
      ∀ A : Arena, s'.Within A →
        Fetches A root id s.vregs code s'.vregs fun _ o' => o'.needsAddress = false := by
  simp only [valueOperand, runs_bind] at h
  obtain ⟨root, t, hroot, o, _, ho, h⟩ := h
  obtain ⟨c, hc, hget, rfl⟩ := runs_operand.mp ho
  obtain ⟨hpath, hvregs, hbound⟩ := resolve_path hroot
  split at h
  · next haddr =>
    simp only [runs_bind, runs_pure] at h
    obtain ⟨dst, t', hdst, _, _, hlea, rfl, rfl⟩ := h
    obtain ⟨r, code, hr, hvregs', hpath', hcode⟩ := fill_path hdst hlea
    refine ⟨root, code, hpath.after hpath', hpath'.values hbound, fun A hA => ?_⟩
    obtain ⟨o', ho', hd, rfl⟩ := hcode A hA
    cases (operand_get ho (hpath'.within hA)).symm.trans ho'
    have hcopy : o.copyOp = .lea := by rw [Operand.copyOp, if_pos haddr]
    have hreg : o.inRegister r = ⟨.virt r, .ptr⟩ :=
      by rw [Operand.inRegister, if_pos haddr]
    rw [hvregs', hvregs, ← hreg, ← hcopy]
    exact ⟨o, o.inRegister r, ho',
      by rw [hreg]; exact hd, .copy r (by rw [hr, hvregs]), rfl⟩
  · next haddr =>
    obtain ⟨rfl, rfl⟩ := runs_pure.mp h
    refine ⟨root, [], hpath, hbound, fun A hA => ?_⟩
    rw [hvregs]
    exact .keep (operand_get ho hA) (by simpa using haddr)

/-- A pointer in a register takes at most two fetches. -/
theorem addressRegister_fetch (h : Runs (addressRegister v) env s id s') :
    ∃ root mid code code' n, Path env s s' (code ++ code') ∧
      s'.values.find? v = some root ∧
      ∀ A : Arena, s'.Within A →
        Fetches A root mid s.vregs code n (fun _ o' => o'.needsAddress = false) ∧
        Fetches A mid id n code' s'.vregs fun _ o' => o'.isRegister = true := by
  simp only [addressRegister, runs_bind] at h
  obtain ⟨mid, t, hmid, h⟩ := h
  obtain ⟨root, code, hpath, hbound, hf⟩ := valueOperand_fetch hmid
  obtain ⟨code', hpath', hf'⟩ := intoRegister_fetch h
  exact ⟨root, mid, code, code', t.vregs, hpath.trans hpath', hpath'.values hbound,
    fun A hA =>
    ⟨hf A (hpath'.within hA), hf' A hA⟩⟩

end InstSelect.Lowering
