import InstSelect.Proofs.Execution

/-!
# What code leaves alone

`Frame` says once what an instruction can change: the place it names as its destination,
the registers its operation clobbers, and nothing else. Two disciplines of selected code
follow from it, with what each guarantees about whole runs. `Quiet` code writes nothing
but memory and virtual registers from some number on, so physical registers and older
virtual ones stay. `Confined` code may overwrite the physical registers of a given list,
where calls and divisions count as overwriting what they clobber; it writes no memory, so
the shadow slots of the incoming arguments stay.

Between saving the arguments that live in such a list to their shadow slots and reloading
them, confined code does not change any argument register at the argument's width.
-/

namespace InstSelect.Machine

variable {h : Host} {σ τ ρ : Cpu} {n m w : Nat} {c : Code} {op : Op} {x o : Operand}
  {e : Exit} {r : VReg} {st : Storage} {os : List Operand} {code : List Code}
  {regs : List PhysReg}

/-! ## One instruction -/

/-- Operations that write their first operand. -/
def Op.writes : Op → Bool
  | .mov | .movzx | .movsx | .lea | .add | .sub | .imul | .and | .or | .xor | .shl
  | .shr | .sar
  | .setcc _ => true
  | .div | .idiv | .cwd | .cdq | .cqo | .cmp | .test | .jcc _ | .jmp | .call | .ret =>
    false

/-- The place that an instruction names as its destination. -/
def Code.dst? (c : Code) : Option Operand :=
  if c.op.writes then c.operands.head? else none

/-- Registers that an operation changes without naming them. -/
def Op.Clobbers (abi : Abi) : Op → PhysReg → Prop
  | .call, r => r ≠ abi.frameBase
  | .div, r | .idiv, r => r = .rax ∨ r = .rdx
  | .cwd, r | .cdq, r | .cqo, r => r = .rdx
  | _, _ => False

/--
What an instruction can change: its destination, the registers it clobbers, and the flags.
-/
structure Frame (h : Host) (c : Code) (σ τ : Cpu) : Prop where
  phys : ∀ r, (∀ o ∈ c.dst?, o.form ≠ .phys r) → ¬ c.op.Clobbers h.abi r →
    τ.phys r = σ.phys r
  virt : ∀ r, (∀ o ∈ c.dst?, o.form ≠ .virt r) → τ.virt r = σ.virt r
  memory : ∀ a, (∀ o ∈ c.dst?, o.shape ≠ .mem) →
    (c.op = .call → InShadow h.abi (σ.phys h.abi.frameBase) a) → τ.memory a = σ.memory a

namespace Frame

/-- Nothing but the flags changed. -/
theorem of_status (c : Code) (s : Status) : Frame h c σ { σ with status := s } :=
  ⟨fun _ _ _ => rfl, fun _ _ => rfl, fun _ _ _ => rfl⟩

/-- The destination was written. -/
theorem of_write (hdst : c.dst? = some o) (x : BitVec 64) (s : Status) :
    Frame h c σ { h.write σ o x with status := s } := by
  obtain ⟨form, st⟩ := o
  refine ⟨?_, ?_, ?_⟩
  · intro r hr _
    have hne : form ≠ .phys r := hr _ hdst
    cases form with
    | phys q =>
      have : r ≠ q := fun heq => hne (by rw [heq])
      simp [Host.write, Cpu.setPhys, this]
    | _ => rfl
  · intro r hr
    have hne : form ≠ .virt r := hr _ hdst
    cases form with
    | virt q =>
      have : r ≠ q := fun heq => hne (by rw [heq])
      simp [Host.write, Cpu.setVirt, this]
    | _ => rfl
  · intro a hmem _
    have hshape := hmem _ hdst
    cases form with
    | phys q => rfl
    | virt q => rfl
    | imm q => rfl
    | label q => rfl
    | _ => exact absurd rfl hshape

/-- Registers that the operation clobbers were written. -/
theorem of_phys {f : PhysReg → BitVec 64} (s : Status)
    (hf : ∀ r, ¬ c.op.Clobbers h.abi r → f r = σ.phys r) :
    Frame h c σ { σ with phys := f, status := s } :=
  ⟨fun r _ hr => hf r hr, fun _ _ => rfl, fun _ _ _ => rfl⟩

end Frame

/-- The high half of the accumulator is written. -/
theorem frame_signFill (w : Nat) (hop : ∀ r, c.op.Clobbers h.abi r ↔ r = .rdx) :
    Frame h c σ (σ.signFill w) := by
  refine Frame.of_phys σ.status fun r hr => ?_
  have hne : r ≠ .rdx := fun heq => hr ((hop r).mpr heq)
  simp [hne]

/-- Divisions write the accumulator pair. -/
theorem frame_divide {d : BitVec 64} {s : Status}
    {op : Nat → BitVec 64 → BitVec 64 → BitVec 64 → Option (BitVec 64 × BitVec 64)}
    (hdiv : σ.divide op w d = some τ)
    (hop : ∀ r, c.op.Clobbers h.abi r ↔ r = .rax ∨ r = .rdx) :
    Frame h c σ { τ with status := s } := by
  unfold Cpu.divide at hdiv
  split at hdiv <;> obtain ⟨⟨q, rest⟩, -, rfl⟩ := Option.map_eq_some_iff.mp hdiv
  · refine Frame.of_phys s fun r hr => ?_
    have hne : r ≠ .rax := fun heq => hr ((hop r).mpr (.inl heq))
    simp [Cpu.setPhys, hne]
  · refine Frame.of_phys s fun r hr => ?_
    have hne : r ≠ .rax := fun heq => hr ((hop r).mpr (.inl heq))
    have hne' : r ≠ .rdx := fun heq => hr ((hop r).mpr (.inr heq))
    simp [Cpu.setPhys, hne, hne']

/-- A callee gives back the frame base and leaves the shadow slots alone. -/
theorem frame_call : Frame h ⟨.call, [x]⟩ σ (h.afterCall σ x) := by
  refine ⟨fun r _ hr => ?_, fun _ _ => rfl, fun a _ ha => ?_⟩
  · have hbase : r = h.abi.frameBase := Classical.not_not.mp hr
    simp [Host.afterCall, hbase]
  · simp [Host.afterCall, ha rfl]

theorem Op.writes_of_compute {v : Nat} {x y z : BitVec 64}
    (hz : op.compute w v x y = some z) : op.writes = true := by
  cases op <;> first | rfl | cases hz

/-- Operations of two operands write the first or only set flags. -/
theorem frame_binary {y : Operand} (hs : h.binary σ x y op = some e) :
    Frame h ⟨op, [x, y]⟩ σ e.cpu := by
  unfold Host.binary at hs
  split at hs
  · cases hs
    exact Frame.of_write rfl (h.addressOf σ y) _
  · cases hs
    exact Frame.of_status _ _
  · cases hs
    exact Frame.of_status _ _
  · obtain ⟨v, hv, rfl⟩ := Option.map_eq_some_iff.mp hs
    have hdst : (⟨op, [x, y]⟩ : Code).dst? = some x := by
      rw [Code.dst?, if_pos (Op.writes_of_compute hv)]
      rfl
    show Frame h _ σ (if op.keepsStatus then _ else _)
    split <;> exact Frame.of_write hdst v _

/-- Operations of one operand. -/
theorem frame_unary (hs : h.unary σ x op = some e) : Frame h ⟨op, [x]⟩ σ e.cpu := by
  cases op with
  | setcc cond =>
    cases hs
    exact Frame.of_write rfl _ _
  | div | idiv =>
    obtain ⟨τ, hτ, rfl⟩ := Option.map_eq_some_iff.mp hs
    exact frame_divide hτ fun _ => Iff.rfl
  | call =>
    cases hs
    exact frame_call
  | jmp =>
    obtain ⟨b, -, rfl⟩ := Option.map_eq_some_iff.mp hs
    exact Frame.of_status _ σ.status
  | jcc cond =>
    obtain ⟨b, -, rfl⟩ := Option.map_eq_some_iff.mp hs
    split <;> exact Frame.of_status _ σ.status
  | _ => cases hs

/-- What one instruction can change. -/
theorem Frame.of_step (hs : h.step σ c = some e) : Frame h c σ e.cpu := by
  obtain ⟨op, os⟩ := c
  match os with
  | [] =>
    cases op with
    | cwd =>
      cases hs
      exact frame_signFill 16 fun _ => Iff.rfl
    | cdq =>
      cases hs
      exact frame_signFill 32 fun _ => Iff.rfl
    | cqo =>
      cases hs
      exact frame_signFill 64 fun _ => Iff.rfl
    | ret =>
      cases hs
      exact Frame.of_status _ σ.status
    | _ => cases hs
  | [x] => exact frame_unary hs
  | [x, y] => exact frame_binary hs
  | _ :: _ :: _ :: _ => cases hs

/-! ## Quiet code -/

/-- Physical registers and the virtual registers below `n` are the same. -/
structure Keeps (n : Nat) (σ τ : Cpu) : Prop where
  phys : τ.phys = σ.phys
  virt : ∀ r, r.index.toNat < n → τ.virt r = σ.virt r

namespace Keeps

theorem refl (n : Nat) (σ : Cpu) : Keeps n σ σ := ⟨rfl, fun _ _ => rfl⟩

theorem trans (h : Keeps n σ τ) (h' : Keeps n τ ρ) : Keeps n σ ρ :=
  ⟨h'.phys.trans h.phys, fun r hr => (h'.virt r hr).trans (h.virt r hr)⟩

theorem mono (h : Keeps m σ τ) (hle : n ≤ m) : Keeps n σ τ :=
  ⟨h.phys, fun r hr => h.virt r (by omega)⟩

end Keeps

/-- A place that is neither a physical register nor a virtual one below `n`. -/
def Operand.Scratch (n : Nat) (o : Operand) : Prop :=
  match o.form with
  | .phys _ => False
  | .virt r => n ≤ r.index.toNat
  | _ => True

/-- Operations that change no register without naming it. -/
def Op.clobbersNothing : Op → Bool
  | .call | .div | .idiv | .cwd | .cdq | .cqo => false
  | _ => true

/-- An instruction that writes only scratch places. -/
def Code.Quiet (n : Nat) (c : Code) : Prop :=
  c.op.clobbersNothing = true ∧ ∀ dst ∈ c.dst?, dst.Scratch n

theorem Operand.Scratch.mono (ho : o.Scratch m) (hle : n ≤ m) : o.Scratch n := by
  obtain ⟨form, st⟩ := o
  cases form with
  | virt r => exact Nat.le_trans hle ho
  | _ => exact ho

theorem Code.Quiet.mono (hq : c.Quiet m) (hle : n ≤ m) : c.Quiet n :=
  ⟨hq.1, fun dst hdst => (hq.2 dst hdst).mono hle⟩

/-- An instruction that writes only virtual registers from `n` on. -/
def Code.Calm (n : Nat) (c : Code) : Prop :=
  c.op.clobbersNothing = true ∧ ∀ dst ∈ c.dst?, ∃ r st, dst = ⟨.virt r, st⟩ ∧
    n ≤ r.index.toNat

theorem Code.Calm.mono (hc : c.Calm m) (hle : n ≤ m) : c.Calm n := by
  refine ⟨hc.1, fun dst hdst => ?_⟩
  obtain ⟨r, st, hform, hr⟩ := hc.2 dst hdst
  exact ⟨r, st, hform, Nat.le_trans hle hr⟩

theorem Code.Calm.quiet (hc : c.Calm n) : c.Quiet n := by
  refine ⟨hc.1, fun dst hdst => ?_⟩
  obtain ⟨r, st, rfl, hr⟩ := hc.2 dst hdst
  exact hr

/-- Writing a late virtual register is calm. -/
theorem calm_of_virt (hop : op.clobbersNothing = true) (hr : n ≤ r.index.toNat) :
    Code.Calm n ⟨op, ⟨.virt r, st⟩ :: os⟩ := by
  refine ⟨hop, fun dst hdst => ?_⟩
  unfold Code.dst? at hdst
  split at hdst
  · cases hdst
    exact ⟨r, st, rfl, hr⟩
  · cases hdst

theorem quiet_of_virt (hop : op.clobbersNothing = true) (hr : n ≤ r.index.toNat) :
    Code.Quiet n ⟨op, ⟨.virt r, st⟩ :: os⟩ :=
  (calm_of_virt hop hr).quiet

theorem memory_of_step (hq : c.Calm n) (hs : h.step σ c = some e) :
    e.cpu.memory = σ.memory := by
  refine funext fun a => (Frame.of_step hs).memory a (fun dst hdst => ?_) fun hcall => ?_
  · obtain ⟨r, st, rfl, -⟩ := hq.2 dst hdst
    exact fun hmem => by cases hmem
  · have hnone := hq.1
    rw [hcall] at hnone
    cases hnone

/-- Calm code leaves memory alone. -/
theorem memory_of_run (hq : ∀ c ∈ code, c.Calm n) (hrun : h.run code σ = some e) :
    e.cpu.memory = σ.memory := by
  induction code generalizing σ with
  | nil =>
    cases hrun
    rfl
  | cons c rest ih =>
    rw [Host.run] at hrun
    split at hrun
    · next τ hτ =>
      have hstep := memory_of_step (hq c (by simp)) hτ
      exact (ih (fun d hd => hq d (by simp [hd])) hrun).trans hstep
    · exact memory_of_step (hq c (by simp)) hrun

theorem Keeps.of_step (hq : c.Quiet n) (hs : h.step σ c = some e) : Keeps n σ e.cpu := by
  have hframe := Frame.of_step hs
  refine ⟨funext fun r => hframe.phys r ?_ ?_, fun r hr => hframe.virt r ?_⟩
  · intro o ho hform
    have := hq.2 o ho
    simp [Operand.Scratch, hform] at this
  · have hnone := hq.1
    cases hop : c.op <;> simp_all [Op.clobbersNothing, Op.Clobbers]
  · intro o ho hform
    have := hq.2 o ho
    simp only [Operand.Scratch, hform] at this
    omega

/-- Quiet code keeps physical registers and older virtual ones. -/
theorem Keeps.of_run (hq : ∀ c ∈ code, c.Quiet n) (hrun : h.run code σ = some e) :
    Keeps n σ e.cpu := by
  induction code generalizing σ with
  | nil =>
    cases hrun
    exact Keeps.refl n σ
  | cons c rest ih =>
    rw [Host.run] at hrun
    split at hrun
    · next τ hτ =>
      have hstep := Keeps.of_step (hq c (by simp)) hτ
      exact hstep.trans (ih (fun d hd => hq d (by simp [hd])) hrun)
    · exact Keeps.of_step (hq c (by simp)) hrun

/-! ## Confined code -/

/-- A register of the list, or a virtual one. -/
def Operand.Inside (regs : List PhysReg) (o : Operand) : Prop :=
  match o.form with
  | .phys r => r ∈ regs
  | .virt _ => True
  | _ => False

/-- Registers that hold incoming arguments or address their shadow slots. -/
def Tracked (abi : Abi) (r : PhysReg) : Prop := r ∈ abi.argRegisters ∨ r = abi.frameBase

/--
An instruction that stays in its block and overwrites tracked registers of the list only;
divisions overwrite the accumulator too.
-/
structure Code.Confined (abi : Abi) (regs : List PhysReg) (c : Code) : Prop where
  stays : c.op.isTerminator = false
  clobbers : ∀ r, Tracked abi r → c.op.Clobbers abi r → r ∈ regs
  divides : c.op.divides = true → .rax ∈ regs
  dst : ∀ dst ∈ c.dst?, dst.Inside regs

/-- Tracked registers outside the list and the shadow slots are the same. -/
structure Spares (h : Host) (regs : List PhysReg) (σ τ : Cpu) : Prop where
  phys : ∀ r, Tracked h.abi r → r ∉ regs → τ.phys r = σ.phys r
  shadow : ∀ a, InShadow h.abi (σ.phys h.abi.frameBase) a → τ.memory a = σ.memory a

namespace Spares

variable {regs : List PhysReg}

theorem refl (h : Host) (regs : List PhysReg) (σ : Cpu) : Spares h regs σ σ :=
  ⟨fun _ _ _ => rfl, fun _ _ => rfl⟩

theorem trans (hbase : h.abi.frameBase ∉ regs) (h1 : Spares h regs σ τ)
    (h2 : Spares h regs τ ρ) : Spares h regs σ ρ := by
  refine ⟨fun r ht hr => (h2.phys r ht hr).trans (h1.phys r ht hr), fun a ha => ?_⟩
  have hsame := h1.phys _ (Or.inr rfl) hbase
  rw [h2.shadow a (by rwa [hsame]), h1.shadow a ha]

theorem of_step (hc : c.Confined h.abi regs) (hs : h.step σ c = some e) :
    Spares h regs σ e.cpu := by
  have hframe := Frame.of_step hs
  refine ⟨fun r ht hr => hframe.phys r ?_ fun hcl => hr (hc.clobbers r ht hcl),
    fun a ha =>
    hframe.memory a ?_ fun _ => ha⟩
  · intro o ho hform
    have hin := hc.dst o ho
    simp only [Operand.Inside, hform] at hin
    exact hr hin
  · intro o ho
    have hin := hc.dst o ho
    obtain ⟨form, st⟩ := o
    cases form <;> simp_all [Operand.Inside, Operand.shape]

end Spares

/-- An operation that does not end its block falls through. -/
theorem falls_of_step (hc : c.op.isTerminator = false) (hs : h.step σ c = some e) :
    e = .falls e.cpu := by
  obtain ⟨op, os⟩ := c
  match os with
  | [] =>
    change Host.nullary σ op = some e at hs
    unfold Host.nullary at hs
    split at hs
    · cases hs
      rfl
    · cases hs
      rfl
    · cases hs
      rfl
    · cases hc
    · cases hs
  | [x] =>
    change h.unary σ x op = some e at hs
    unfold Host.unary at hs
    split at hs
    · cases hs
      rfl
    · obtain ⟨τ, -, rfl⟩ := Option.map_eq_some_iff.mp hs
      rfl
    · obtain ⟨τ, -, rfl⟩ := Option.map_eq_some_iff.mp hs
      rfl
    · cases hs
      rfl
    · cases hc
    · cases hc
    · cases hs
  | [x, y] =>
    change h.binary σ x y op = some e at hs
    unfold Host.binary at hs
    split at hs
    · cases hs
      rfl
    · cases hs
      rfl
    · cases hs
      rfl
    · obtain ⟨v, -, rfl⟩ := Option.map_eq_some_iff.mp hs
      rfl
  | _ :: _ :: _ :: _ => cases hs

/-- Confined code falls through and spares the tracked registers outside its list. -/
theorem Spares.of_run (hbase : h.abi.frameBase ∉ regs)
    (hc : ∀ c ∈ code, c.Confined h.abi regs) (hrun : h.run code σ = some e) :
    e = .falls e.cpu ∧ Spares h regs σ e.cpu := by
  induction code generalizing σ with
  | nil =>
    cases hrun
    exact ⟨rfl, Spares.refl h regs σ⟩
  | cons c rest ih =>
    rw [Host.run] at hrun
    split at hrun
    · next τ hτ =>
      have hstep := Spares.of_step (hc c (by simp)) hτ
      obtain ⟨hfalls, hrest⟩ := ih (fun d hd => hc d (by simp [hd])) hrun
      exact ⟨hfalls, hstep.trans hbase hrest⟩
    · next hne =>
      have hfalls := falls_of_step (hc c (by simp)).stays hrun
      exact absurd (hrun.trans (congrArg some hfalls)) (hne _)

/-! ## Saved arguments -/

/-- An incoming argument: its place in the parameter list, its register and its class. -/
structure Incoming where
  index : Nat
  reg : PhysReg
  storage : Storage
deriving DecidableEq, Repr

variable {a : Incoming} {args : List Incoming}

namespace Incoming

/-- The register of an argument. -/
def operand (a : Incoming) : Operand := ⟨.phys a.reg, a.storage⟩

/-- The shadow slot of an argument, under the Windows x64 convention. -/
def home (a : Incoming) : Operand :=
  ⟨.mem ((Address.ofBase (.phys .rbp)).withDisp (Int32.ofNat (16 + 8 * a.index))),
    a.storage⟩

/-- Saves an argument to its shadow slot. -/
def save (a : Incoming) : Code := ⟨.mov, [a.home, a.operand]⟩

/-- Reloads an argument from its shadow slot. -/
def reload (a : Incoming) : Code := ⟨.mov, [a.operand, a.home]⟩

/-- Where the shadow slot lies. -/
def address (σ : Cpu) (a : Incoming) : BitVec 64 :=
  σ.phys .rbp + BitVec.ofNat 64 (16 + 8 * a.index)

theorem addressOf_home (ha : a.index < 4) : h.addressOf σ a.home = a.address σ := by
  have hdisp : (Int32.ofNat (16 + 8 * a.index)).toBitVec.signExtend 64 =
      BitVec.ofNat 64 (16 + 8 * a.index) := by
    match a.index, ha with
    | 0, _ | 1, _ | 2, _ | 3, _ => rfl
  show σ.phys .rbp + 0#64 + (Int32.ofNat (16 + 8 * a.index)).toBitVec.signExtend 64 = _
  rw [hdisp, BitVec.add_zero, address]

theorem size_le (a : Incoming) : a.storage.size.toNat ≤ 8 := by
  cases a.storage <;> decide

/-- Distinct slots share no byte. -/
theorem slots_disjoint {b : Incoming} (ha : a.index < 4) (hb : b.index < 4)
    (hne : a.index ≠ b.index) (j : Nat) (hj : j < b.storage.size.toNat) :
    a.storage.size.toNat ≤ (b.address σ + BitVec.ofNat 64 j - a.address σ).toNat := by
  have hsa := a.size_le
  have hsb := b.size_le
  simp only [address]
  generalize σ.phys .rbp = base
  simp only [BitVec.toNat_sub, BitVec.toNat_add, BitVec.toNat_ofNat]
  have := base.isLt
  omega

/-- The bytes of a slot lie in the shadow space. -/
theorem inShadow_address (ha : a.index < 4) {j : Nat} (hj : j < a.storage.size.toNat) :
    InShadow .win64 (σ.phys .rbp) (a.address σ + BitVec.ofNat 64 j) := by
  have hsa := a.size_le
  have hoffset : Abi.win64.shadowOffset.toBitVec.signExtend 64 = BitVec.ofNat 64 16 := rfl
  have hcount : Abi.win64.shadowSlotSize.toInt.toNat * Abi.win64.argRegisters.length =
    32 := rfl
  rw [InShadow, hoffset, hcount, address]
  generalize σ.phys .rbp = base
  simp only [BitVec.toNat_sub, BitVec.toNat_add, BitVec.toNat_ofNat]
  have := base.isLt
  omega

/-- Saving writes the slot and nothing else. -/
theorem step_save (ha : a.index < 4) :
    h.step σ a.save = some (.falls { σ with
      memory := σ.memory.store (a.address σ) a.storage.size.toNat (σ.phys a.reg) }) := by
  rw [← addressOf_home (h := h) ha]
  rfl

/-- Reloading writes the register and nothing else. -/
theorem step_reload (ha : a.index < 4) :
    h.step σ a.reload = some (.falls (σ.setPhys a.storage.width a.reg
      (σ.memory.load (a.address σ) a.storage.size.toNat))) := by
  rw [← addressOf_home (h := h) ha]
  rfl

/--
Saves of distinct arguments leave every one of them in its slot. A slot of an argument
that is not saved keeps its contents, which is what carries the induction.
-/
theorem run_saves (hidx : ∀ a ∈ args, a.index < 4)
    (hdist : args.Pairwise (·.index ≠ ·.index)) :
    ∃ m, h.run (args.map save) σ = some (.falls { σ with memory := m }) ∧
      (∀ a ∈ args, m.load (a.address σ) a.storage.size.toNat =
        zeroExtended a.storage.width (σ.phys a.reg)) ∧
      ∀ b : Incoming, b.index < 4 → (∀ a ∈ args, a.index ≠ b.index) →
        m.load (b.address σ) b.storage.size.toNat =
          σ.memory.load (b.address σ) b.storage.size.toNat := by
  induction args generalizing σ with
  | nil => exact ⟨σ.memory, rfl, by simp, fun _ _ _ => rfl⟩
  | cons x rest ih =>
    have hx := hidx x (by simp)
    have hrest : ∀ a ∈ rest, a.index < 4 := fun a ha => hidx a (by simp [ha])
    have hapart := List.pairwise_cons.mp hdist
    let ρ : Cpu := { σ with
      memory := σ.memory.store (x.address σ) x.storage.size.toNat (σ.phys x.reg) }
    obtain ⟨m, hrun, hsaved, hother⟩ := ih (σ := ρ) hrest hapart.2
    refine ⟨m, ?_, ?_, ?_⟩
    · rw [List.map_cons, Host.run_cons_of_falls (step_save hx)]
      exact hrun
    · intro a ha
      rcases List.mem_cons.mp ha with rfl | ha
      · have hkept := hother a hx fun b hb => (hapart.1 b hb).symm
        have hread := Memory.load_store σ.memory (a.address σ) a.size_le (σ.phys a.reg)
        rw [← Storage.width_eq] at hread
        exact hkept.trans hread
      · exact hsaved a ha
    · intro b hb hne
      have hkept := hother b hb fun a ha => hne a (by simp [ha])
      refine hkept.trans ?_
      exact Memory.load_store_of_disjoint σ.memory b.size_le
        (slots_disjoint hx hb (hne x (by simp))) _

/--
Reloads of distinct registers bring back what the slots hold and change nothing else.
-/
theorem run_reloads (hidx : ∀ a ∈ args, a.index < 4) (hbase : ∀ a ∈ args, a.reg ≠ .rbp)
    (hdist : args.Pairwise (·.reg ≠ ·.reg)) :
    ∃ f, h.run (args.map reload) σ = some (.falls { σ with phys := f }) ∧
      (∀ a ∈ args, (f a.reg).setWidth a.storage.width =
        (σ.memory.load (a.address σ) a.storage.size.toNat).setWidth a.storage.width) ∧
      ∀ r, (∀ a ∈ args, a.reg ≠ r) → f r = σ.phys r := by
  induction args generalizing σ with
  | nil => exact ⟨σ.phys, rfl, by simp, fun _ _ => rfl⟩
  | cons x rest ih =>
    have hx := hidx x (by simp)
    have hxb := hbase x (by simp)
    have hapart := List.pairwise_cons.mp hdist
    let ρ : Cpu := σ.setPhys x.storage.width x.reg
      (σ.memory.load (x.address σ) x.storage.size.toNat)
    have hρ : ∀ b : Incoming, b.address ρ = b.address σ := by
      intro b
      simp [address, ρ, Cpu.setPhys, hxb.symm]
    obtain ⟨f, hrun, hback, hother⟩ := ih (σ := ρ) (fun a ha => hidx a (by simp [ha]))
      (fun a ha => hbase a (by simp [ha])) hapart.2
    refine ⟨f, ?_, ?_, ?_⟩
    · rw [List.map_cons, Host.run_cons_of_falls (step_reload hx)]
      exact hrun
    · intro a ha
      rcases List.mem_cons.mp ha with rfl | ha
      · rw [hother a.reg fun b hb => (hapart.1 b hb).symm]
        simp only [ρ, Cpu.setPhys, if_pos]
        exact setWidth_merge a.storage.width_le _ _
      · have := hback a ha
        rwa [hρ] at this
    · intro r hr
      rw [hother r fun a ha => hr a (by simp [ha])]
      have hne : r ≠ x.reg := (hr x (by simp)).symm
      simp [ρ, Cpu.setPhys, hne]

end Incoming

/--
Code between the saves and the reloads of the arguments in a list of registers keeps every
tracked register: those arguments at their width, all others entirely.
-/
theorem run_preserving {body : List Code} (habi : h.abi = .win64) (hbase : .rbp ∉ regs)
    (hidx : ∀ a ∈ args, a.index < 4) (hin : ∀ a ∈ args, a.reg ∈ regs)
    (hslots : args.Pairwise (·.index ≠ ·.index)) (hregs : args.Pairwise (·.reg ≠ ·.reg))
    (hbody : ∀ c ∈ body, c.Confined .win64 regs)
    (hrun : h.run (args.map Incoming.save ++ body ++ args.map Incoming.reload) σ =
      some e) :
    (∀ a ∈ args, (e.cpu.phys a.reg).setWidth a.storage.width =
      (σ.phys a.reg).setWidth a.storage.width) ∧
    ∀ r, Tracked .win64 r → r ∉ regs → e.cpu.phys r = σ.phys r := by
  have hne : ∀ a ∈ args, a.reg ≠ .rbp := by
    intro a ha heq
    exact hbase (heq ▸ hin a ha)
  obtain ⟨m, hsaves, hsaved, -⟩ := Incoming.run_saves (h := h) (σ := σ) hidx hslots
  rw [List.append_assoc, Host.run_append_of_falls hsaves] at hrun
  -- The body falls through, so the reloads run in the state it leaves.
  have hconf : ∀ c ∈ body, c.Confined h.abi regs := by rwa [habi]
  have hframe : h.abi.frameBase ∉ regs := by rwa [habi]
  have hmid : ∃ τ, h.run body { σ with memory := m } = some (.falls τ) ∧
      h.run (args.map Incoming.reload) τ = some e := by
    rcases Host.run_append hrun with hsplit | hleft
    · exact hsplit
    · have hfalls := (Spares.of_run hframe hconf hleft).1
      rw [hfalls] at hleft
      exact ⟨e.cpu, hleft, by rw [Host.run_append_of_falls hleft] at hrun; exact hrun⟩
  obtain ⟨τ, hτ, hreload⟩ := hmid
  have hspares := (Spares.of_run hframe hconf hτ).2
  obtain ⟨f, hf, hback, hother⟩ := Incoming.run_reloads (h := h) (σ := τ) hidx hne hregs
  rw [hf] at hreload
  cases hreload
  have hrbp : τ.phys .rbp = σ.phys .rbp :=
    hspares.phys .rbp (Or.inr (by rw [habi]; rfl)) hbase
  refine ⟨fun a ha => ?_, fun r ht hr => ?_⟩
  · -- The slot has kept the saved value through the body.
    have haddr : a.address τ = a.address σ := by rw [Incoming.address, hrbp]; rfl
    have hslot : τ.memory.load (a.address τ) a.storage.size.toNat =
        m.load (a.address σ) a.storage.size.toNat := by
      rw [haddr]
      refine Memory.load_congr fun j hj => hspares.shadow _ ?_
      rw [habi]
      exact Incoming.inShadow_address (hidx a ha) hj
    calc (f a.reg).setWidth a.storage.width
        = (m.load (a.address σ) a.storage.size.toNat).setWidth a.storage.width := by
          rw [hback a ha, hslot]
      _ = (σ.phys a.reg).setWidth a.storage.width := by
          rw [hsaved a ha, setWidth_zeroExtended a.storage.width_le]
  · have hkept : f r = τ.phys r := hother r fun a ha heq => hr (heq ▸ hin a ha)
    exact hkept.trans (hspares.phys r (by rwa [habi]) hr)

end InstSelect.Machine
