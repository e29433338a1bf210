import InstSelect.Proofs.CallBinding

/-!
# Element addresses

An address is walked from a base through pointers, arrays and structs. On the way it is a
register and a displacement. Constant steps go into the displacement while it has room;
else the address is computed into a register and starts again. Steps by a variable index
are one address computation where the size of the element is a scale, and a multiplication
and an addition otherwise. Whichever way a step takes, the register and the displacement
together advance by the distance of the step, so a walk advances by the sum.
-/

namespace InstSelect.IR

namespace Ty

/--
The distance that a list of indices leads from an address, given the words of the indices.
-/
def distance? (word : ValueId → Option (BitVec 64)) :
    Ty → List ValueId → Option (BitVec 64)
  | _, [] => some 0
  | .struct _ fields packed, v :: rest => do
    let index ← word v
    let layout ← (Ty.structLayout packed fields).toOption
    let offset ← layout.offsets[index.toNat]?
    let field ← fields[index.toNat]?
    let further ← field.distance? word rest
    pure (offset.toBitVec + further)
  | .ptr element, v :: rest | .array element _, v :: rest => do
    let index ← word v
    let size ← element.size.toOption
    let further ← element.distance? word rest
    pure (index * size.toBitVec + further)
  | _, _ => none

variable {word : ValueId → Option (BitVec 64)} {v : ValueId} {rest : List ValueId}
  {index further : BitVec 64}

theorem distance?_nil (word : ValueId → Option (BitVec 64)) (ty : Ty) :
    ty.distance? word [] = some 0 := by
  cases ty <;> rfl

/-- A step into a member adds its offset. -/
theorem distance?_member {name : Option String} {fields : List Ty} {packed : Bool}
    {layout : StructLayout} {offset : UInt64} {field : Ty} (hindex : word v = some index)
    (hlayout : structLayout packed fields = .ok layout)
    (hoffset : layout.offsets[index.toNat]? = some offset)
    (hfield : fields[index.toNat]? = some field)
    (hfurther : field.distance? word rest = some further) :
    (struct name fields packed).distance? word (v :: rest) =
      some (offset.toBitVec + further) := by
  simp only [distance?, hindex, hlayout, Except.toOption, Option.bind_eq_bind,
    Option.bind_some, hoffset, hfield, hfurther]
  rfl

/-- The types that are stepped over, with those of their elements. -/
inductive Elements : Ty → Ty → Prop
  | ptr (element : Ty) : Elements (ptr element) element
  | array (element : Ty) (length : UInt64) : Elements (array element length) element

/-- A step over elements adds as many sizes as the index says. -/
theorem distance?_element {ty element : Ty} {size : UInt64} (hty : Elements ty element)
    (hindex : word v = some index) (hsize : element.size = .ok size)
    (hfurther : element.distance? word rest = some further) :
    ty.distance? word (v :: rest) = some (index * size.toBitVec + further) := by
  cases hty <;>
  · simp only [distance?, hindex, hsize, Except.toOption, Option.bind_eq_bind,
      Option.bind_some, hfurther]
    rfl

end Ty

end InstSelect.IR

namespace InstSelect.Machine

variable {n m k w : Nat} {o x b : Operand} {code : List Code} {h : Host} {σ : Cpu}
  {signed : Bool} {r : Reg} {disp : Int32} {st : Storage} {y : BitVec 64}

/-! ## Pointers -/

theorem signExtend_eq_ofInt (x : Int32) : x.toBitVec.signExtend 64 =
    BitVec.ofInt 64 x.toInt := rfl

/-- What `lea` and `mov` leave in a 64-bit register. -/
theorem virt_write {d : VReg} (hst : st.width = 64) (x : BitVec 64) :
    (h.write σ ⟨.virt d, st⟩ x).virt d = x := by
  have := read_write_virt (h := h) (σ := σ) d st x
  rwa [hst, BitVec.setWidth_eq, BitVec.setWidth_eq] at this

/-- A register of 64 bits, none of those from `n` on. -/
structure Operand.Pointer (n : Nat) (o : Operand) : Prop where
  register : o.isRegister = true
  steady : o.Steady n
  width : o.width = 64

theorem Operand.Pointer.direct (ho : o.Pointer n) : o.needsAddress = false :=
  needsAddress_of_isRegister ho.register

theorem pointer_virt {r : VReg} (hst : st.width = 64) (hr : r.index.toNat < n) :
    Operand.Pointer n ⟨.virt r, st⟩ :=
  ⟨rfl, hr, hst⟩

theorem value_of_reg (hr : o.reg? = some r) : h.value σ o = σ.reg r := by
  obtain ⟨form, st⟩ := o
  cases form <;> cases hr <;> rfl

/-- What is fetched from 64 bits is the same word. -/
theorem Fetch.run_pointer {o' : Operand} (hf : Fetch n o o' code m) (ho : o.Source n 64)
    (h : Host) (σ : Cpu) :
    ∃ τ, h.run code σ = some (.falls τ) ∧ Keeps n σ τ ∧ h.value τ o' = h.value σ o := by
  obtain ⟨τ, hrun, hkeeps, hvalue⟩ := hf.run_source ho h σ
  rw [BitVec.setWidth_eq, BitVec.setWidth_eq] at hvalue
  exact ⟨τ, hrun, hkeeps, hvalue⟩

/-- An address is computed into a register. -/
theorem run_lea (r : VReg) (a : Address) (h : Host) (σ : Cpu) :
    ∃ τ, h.run [⟨.lea, [⟨.virt r, .ptr⟩, ⟨.mem a, .ptr⟩]⟩] σ = some (.falls τ) ∧
      Keeps r.index.toNat σ τ ∧
      τ.virt r = σ.address a := by
  have hstep : h.step σ ⟨.lea, [⟨.virt r, .ptr⟩, ⟨.mem a, .ptr⟩]⟩ =
      some (.falls (h.write σ ⟨.virt r, .ptr⟩ (σ.address a))) := rfl
  exact ⟨_, Host.run_singleton.trans hstep,
    Keeps.of_step (quiet_of_virt rfl (Nat.le_refl _)) hstep, virt_write rfl _⟩

/-- An operation of two operands at 64 bits leaves what it computes in its register. -/
theorem run_compute {z : BitVec 64} (op : Op) (r : VReg) (st : Storage) (o : Operand)
    (hst : st.width = 64) (hop : op.clobbersNothing = true)
    (hz : op.compute st.width o.width (σ.virt r) (h.read σ o) = some z) :
    ∃ τ, h.step σ ⟨op, [⟨.virt r, st⟩, o]⟩ = some (.falls τ) ∧ Keeps r.index.toNat σ τ ∧
      τ.virt r = z := by
  obtain ⟨τ, hstep, hvalue⟩ := compute_to_virt hz
  rw [hst, BitVec.setWidth_eq, BitVec.setWidth_eq] at hvalue
  exact ⟨τ, hstep, Keeps.of_step (quiet_of_virt hop (Nat.le_refl _)) hstep, hvalue⟩

/-! ## Indices -/

/-- An index, brought into a register and extended to 64 bits. -/
inductive IndexCode (signed : Bool) (n : Nat) (o : Operand) :
    Operand → List Code → Nat → Prop
  | whole {x1 x : Operand} {c1 c2 : List Code} {n1 m : Nat} (value : Fetch n o x1 c1 n1)
      (register : Fetch n1 x1 x c2 m) (held : x.isRegister = true) (wide : x.width = 64) :
      IndexCode signed n o x (c1 ++ c2) m
  | extended {x1 x : Operand} {c1 c2 : List Code} {n1 m : Nat} {r : VReg}
      (value : Fetch n o x1 c1 n1) (register : Fetch n1 x1 x c2 m)
      (held : x.isRegister = true) (fresh : r.index.toNat = m) :
      IndexCode signed n o ⟨.virt r, .i64⟩
      (c1 ++ (c2 ++ [⟨wideningOp signed, [⟨.virt r, .i64⟩, x]⟩])) (m + 1)

theorem IndexCode.le (hi : IndexCode signed n o x code m) : n ≤ m := by
  cases hi with
  | whole value register => exact Nat.le_trans value.le register.le
  | extended value register => exact Nat.le_succ_of_le (Nat.le_trans value.le register.le)

/--
Where an index is a 64-bit word, so are all stages of it; else the last one extends it.
-/
theorem IndexCode.run (hi : IndexCode signed n o x code m) (ho : o.Source n w)
    (h : Host) (σ : Cpu) :
    ∃ τ, h.run code σ = some (.falls τ) ∧ Keeps n σ τ ∧ x.Pointer m ∧
      h.value τ x = widened signed 64 ((h.value σ o).setWidth w) := by
  cases hi with
  | @whole x1 x c1 c2 n1 m value register held wide =>
    have hx1 := value.source ho
    have hx := register.source hx1
    obtain rfl : 64 = w := wide.symm.trans hx.width
    obtain ⟨σ1, run1, keeps1, value1⟩ := value.run_pointer ho h σ
    obtain ⟨τ, run2, keeps2, value2⟩ := register.run_pointer hx1 h σ1
    refine ⟨τ, (Host.run_append_of_falls run1).trans run2,
      keeps1.trans (keeps2.mono value.le), ⟨held, hx.steady, wide⟩, ?_⟩
    rw [value2, value1, widened_self, BitVec.setWidth_eq]
  | @extended x1 x c1 c2 n1 m r value register held fresh =>
    have hx1 := value.source ho
    have hx := register.source hx1
    obtain ⟨σ1, run1, keeps1, value1⟩ := value.run_source ho h σ
    obtain ⟨σ2, run2, keeps2, value2⟩ := register.run_source hx1 h σ1
    obtain ⟨z, hz, hvalue⟩ :=
      converts_wideningOp signed 64 x.width (σ2.virt r) (h.read σ2 x) (by decide)
    obtain ⟨τ, step3, keeps3, value3⟩ := run_compute (wideningOp signed) r .i64 x rfl
      (clobbersNothing_wideningOp signed) hz
    rw [fresh] at keeps3
    refine ⟨τ, ?_,
      keeps1.trans
      ((keeps2.mono value.le).trans (keeps3.mono (Nat.le_trans value.le register.le))),
      pointer_virt rfl (by omega), ?_⟩
    · rw [Host.run_append_of_falls run1, Host.run_append_of_falls run2,
        Host.run_singleton]
      exact step3
    · rw [← value_of_direct (Operand.needsAddress_of_isRegister held), BitVec.setWidth_eq,
        hx.width] at hvalue
      show τ.virt r = _
      rw [value3, hvalue, value2, value1]

/-! ## Walking -/

/-- A register with a displacement. -/
structure Spot where
  base : Operand
  disp : Int32

/-- The address of a spot. -/
def Spot.word (h : Host) (σ : Cpu) (p : Spot) : BitVec 64 :=
  h.value σ p.base + p.disp.toBitVec.signExtend 64

/-- Where a walk began: before it, the registers from `vregs` on were not in use. -/
structure Origin where
  host : Host
  cpu : Cpu
  vregs : Nat

variable {O : Origin}

/--
`Brings O n code m x y`: underway from `O`, `code` brings the word `y` into the register
`x`.
-/
def Brings (O : Origin) (n : Nat) (code : List Code) (m : Nat) (x : Operand)
    (y : BitVec 64) : Prop :=
  O.vregs ≤ n → n ≤ m ∧ x.Pointer m ∧ ∀ σ, Keeps O.vregs O.cpu σ →
    ∃ τ, O.host.run code σ = some (.falls τ) ∧ Keeps n σ τ ∧ O.host.value τ x = y

/-- An index has the word that it had at the start. -/
theorem IndexCode.brings (hi : IndexCode signed n o x code m) (ho : o.Source O.vregs w) :
    Brings O n code m x (widened signed 64 ((O.host.value O.cpu o).setWidth w)) := by
  intro hO
  have hx : x.Pointer m := by
    obtain ⟨-, -, -, hx, -⟩ := hi.run (ho.mono hO) O.host O.cpu
    exact hx
  refine ⟨hi.le, hx, fun σ hσ => ?_⟩
  obtain ⟨τ, hrun, hkeeps, -, hvalue⟩ := hi.run (ho.mono hO) O.host σ
  rw [hσ.value ho.steady] at hvalue
  exact ⟨τ, hrun, hkeeps, hvalue⟩

theorem Fetch.brings_imm {c : Int64} (hf : Fetch n ⟨.imm c, .i64⟩ x code m)
    (hx : x.isRegister = true) : Brings O n code m x c.toBitVec := by
  have hsource : Operand.Source n 64 ⟨.imm c, .i64⟩ := ⟨trivial, rfl, nofun⟩
  have hx' := hf.source hsource
  refine fun _ => ⟨hf.le, ⟨hx, hx'.steady, hx'.width⟩, fun σ _ => ?_⟩
  exact hf.run_pointer hsource O.host σ

/--
`Travels O n p code m p' d`: underway from `O`, `code` leads from the spot `p` to `p'`, at
a distance `d`. It uses the registers from `n` to `m`.
-/
def Travels (O : Origin) (n : Nat) (p : Spot) (code : List Code) (m : Nat) (p' : Spot)
    (d : BitVec 64) : Prop :=
  O.vregs ≤ n → p.base.Pointer n →
    n ≤ m ∧ p'.base.Pointer m ∧ ∀ σ, Keeps O.vregs O.cpu σ →
    ∃ τ, O.host.run code σ = some (.falls τ) ∧ Keeps O.vregs O.cpu τ ∧
      p'.word O.host τ = p.word O.host σ + d

namespace Travels

variable {p p' q : Spot} {c1 c2 : List Code} {d d' : BitVec 64}

theorem trans (h : Travels O n p c1 m p' d) (h' : Travels O m p' c2 k q d') :
    Travels O n p (c1 ++ c2) k q (d + d') := by
  intro hO hp
  obtain ⟨hle, hp', hrun⟩ := h hO hp
  obtain ⟨hle', hq, hrun'⟩ := h' (Nat.le_trans hO hle) hp'
  refine ⟨Nat.le_trans hle hle', hq, fun σ hσ => ?_⟩
  obtain ⟨τ, run1, keeps1, word1⟩ := hrun σ hσ
  obtain ⟨υ, run2, keeps2, word2⟩ := hrun' τ keeps1
  exact ⟨υ, (Host.run_append_of_falls run1).trans run2, keeps2,
    by rw [word2, word1, BitVec.add_assoc]⟩

theorem refl (O : Origin) (n : Nat) (p : Spot) : Travels O n p [] n p 0 := fun _ hp =>
  ⟨Nat.le_refl n, hp, fun σ hσ => ⟨σ, rfl, hσ, (BitVec.add_zero _).symm⟩⟩

/-- The displacement takes up a distance. -/
theorem fold {disp' : Int32} {offset : Int64}
    (hsum : disp'.toInt = disp.toInt + offset.toInt) :
    Travels O n ⟨b, disp⟩ [] n ⟨b, disp'⟩ offset.toBitVec := by
  refine fun _ hp => ⟨Nat.le_refl n, hp, fun σ hσ => ⟨σ, rfl, hσ, ?_⟩⟩
  have hoffset : offset.toBitVec = BitVec.ofInt 64 offset.toInt := BitVec.ofInt_toInt.symm
  simp only [Spot.word]
  rw [signExtend_eq_ofInt, signExtend_eq_ofInt, hsum, BitVec.ofInt_add, hoffset,
    BitVec.add_assoc]

/-- The address is computed into a register, where the walk starts again. -/
theorem lea {q : VReg} (hr : b.reg? = some r) (fresh : q.index.toNat = n) :
    Travels O n ⟨b, disp⟩
      [⟨.lea, [⟨.virt q, .ptr⟩, ⟨.mem ((Address.ofBase r).withDisp disp), .ptr⟩]⟩] (n + 1)
      ⟨⟨.virt q, .ptr⟩, 0⟩ 0 := by
  refine fun hO _ => ⟨Nat.le_succ n, pointer_virt rfl (by omega), fun σ hσ => ?_⟩
  obtain ⟨τ, hrun, hkeeps, hvalue⟩ :=
    run_lea q ((Address.ofBase r).withDisp disp) O.host σ
  refine ⟨τ, hrun, hσ.trans (hkeeps.mono (by omega)), ?_⟩
  show τ.virt q + 0#64 = O.host.value σ b + _ + 0#64
  rw [hvalue, value_of_reg hr, Cpu.address]
  simp [Address.ofBase, Address.withDisp]

/--
The address is computed into a register, with an index that is multiplied by a scale.
-/
theorem lea_indexed {i : Reg} {q : VReg} {scale : UInt8} (hr : b.reg? = some r)
    (hi : x.reg? = some i) (hindex : Brings O n code m x y) (fresh : q.index.toNat = m) :
    Travels O n ⟨b, disp⟩
      (code ++ [⟨.lea, [⟨.virt q, .ptr⟩, ⟨.mem ⟨r, some i, scale, disp⟩, .ptr⟩]⟩]) (m + 1)
      ⟨⟨.virt q, .ptr⟩, 0⟩ (y * scale.toBitVec.setWidth 64) := by
  intro hO hb
  obtain ⟨hle, -, hindex⟩ := hindex hO
  refine ⟨Nat.le_succ_of_le hle, pointer_virt rfl (by omega), fun σ hσ => ?_⟩
  obtain ⟨τ, run1, keeps1, value1⟩ := hindex σ hσ
  obtain ⟨υ, run2, keeps2, value2⟩ := run_lea q ⟨r, some i, scale, disp⟩ O.host τ
  refine ⟨υ, (Host.run_append_of_falls run1).trans run2,
    hσ.trans ((keeps1.mono hO).trans (keeps2.mono (by omega))), ?_⟩
  have haddress : τ.address ⟨r, some i, scale, disp⟩ =
      τ.reg r + τ.reg i * scale.toBitVec.setWidth 64 + disp.toBitVec.signExtend 64 := rfl
  show υ.virt q + 0#64 = O.host.value σ b + disp.toBitVec.signExtend 64 + y * _
  rw [value2, haddress, ← value_of_reg (h := O.host) hr, ← value_of_reg (h := O.host) hi,
    value1, keeps1.value hb.steady, BitVec.add_zero]
  ac_rfl

/-- An index is multiplied by a size, and the product added to the register. -/
theorem product {f : Operand} {p q : VReg} {size : UInt64} {factor : List Code}
    (hindex : Brings O n code m x y) (hp : p.index.toNat = m)
    (hfactor : Brings O (m + 1) factor k f size.toInt64.toBitVec)
    (hq : q.index.toNat = k) :
    Travels O n ⟨b, disp⟩
      (code ++ (⟨.mov, [⟨.virt p, .i64⟩, x]⟩ :: (factor ++ [⟨.imul, [⟨.virt p, .i64⟩, f]⟩,
      ⟨.mov, [⟨.virt q, .ptr⟩, b]⟩, ⟨.add, [⟨.virt q, .ptr⟩, ⟨.virt p, .i64⟩]⟩]))) (k + 1)
      ⟨⟨.virt q, .ptr⟩, disp⟩ (y * size.toBitVec) := by
  intro hO hb
  obtain ⟨hle, hx, hindex⟩ := hindex hO
  obtain ⟨hle', hf, hfactor⟩ := hfactor (by omega)
  refine ⟨by omega, pointer_virt rfl (by omega), fun σ hσ => ?_⟩
  obtain ⟨σ1, run1, keeps1, value1⟩ := hindex σ hσ
  obtain ⟨σ2, step2, keeps2, value2⟩ :=
    run_compute (h := O.host) (σ := σ1) .mov p .i64 x rfl rfl rfl
  rw [hp] at keeps2
  have hσ2 := hσ.trans ((keeps1.trans (keeps2.mono hle)).mono hO)
  obtain ⟨σ3, run3, keeps3, value3⟩ := hfactor σ2 hσ2
  obtain ⟨σ4, step4, keeps4, value4⟩ :=
    run_compute (h := O.host) (σ := σ3) .imul p .i64 f rfl rfl rfl
  obtain ⟨σ5, step5, keeps5, value5⟩ :=
    run_compute (h := O.host) (σ := σ4) .mov q .ptr b rfl rfl rfl
  obtain ⟨τ, step6, keeps6, value6⟩ :=
    run_compute (h := O.host) (σ := σ5) .add q .ptr ⟨.virt p, .i64⟩ rfl rfl rfl
  rw [hp] at keeps4
  rw [hq] at keeps5 keeps6
  -- Up to the product, nothing that the base is in was written.
  have keeps : Keeps n σ σ4 :=
    keeps1.trans
      ((keeps2.mono hle).trans ((keeps3.mono (by omega)).trans (keeps4.mono hle)))
  have hproduct : σ5.virt p = y * size.toBitVec := by
    rw [keeps5.virt p (by omega), value4, ← value_of_direct hf.direct, value3,
      keeps3.virt p (by omega), value2, ← value_of_direct hx.direct, value1]
    rfl
  refine ⟨τ, ?_,
    hσ.trans ((keeps.mono hO).trans
      ((keeps5.mono (by omega)).trans (keeps6.mono (by omega)))), ?_⟩
  · rw [Host.run_append_of_falls run1, Host.run_cons_of_falls step2,
      Host.run_append_of_falls run3,
      Host.run_cons_of_falls step4, Host.run_cons_of_falls step5,
      Host.run_singleton, step6]
  · show τ.virt q + _ = O.host.value σ b + _ + _
    rw [value6, value5, ← value_of_direct hb.direct, keeps.value hb.steady]
    show O.host.value σ b + σ5.virt p + _ = _
    rw [hproduct]
    ac_rfl

end Travels

end InstSelect.Machine

namespace InstSelect.Lowering

open IR (ValueId Inst Ty)
open Machine (Storage Operand OperandId Arena Host Cpu Fetch IndexCode Origin Spot
  Brings Travels widened)

variable {env : Env} {s s' t : State} {A : Arena} {id x : OperandId} {v gep : ValueId}
  {vs indices : List ValueId} {m : IR.Module} {h : Host} {σ : Cpu} {ty ty' element : Ty}
  {o : Operand} {address a' : Partial} {offset c : Int64} {size : UInt64}
  {scale : UInt8} {k : Int} {fields : List Ty} {packed : Bool}

/-! ## Words of indices -/

/-- The operand that a value is bound to, in a finished arena. -/
def State.placeIn (s : State) (A : Arena) (v : ValueId) : Option Operand :=
  (s.values.find? v).bind A.get?

/--
The word of an index: that of a constant, or what its operand holds, extended as its type
asks for.
-/
def indexWord? (m : IR.Module) (place : ValueId → Option Operand) (h : Host) (σ : Cpu)
    (v : ValueId) :
    Option (BitVec 64) :=
  match m.value v with
  | .ok ⟨_, .constant k⟩ => (constantWord? k).map (·.toBitVec)
  | .ok ⟨ty, _⟩ => do
    let o ← place v
    let w ← ty.width?
    pure (widened ty.isSigned 64 ((h.value σ o).setWidth w))
  | .error _ => none

/-- An operand of an index, before code that uses registers from `n` on. -/
structure Readable (m : IR.Module) (n : Nat) (v : ValueId) (o : Operand) : Prop where
  source : o.Source n o.width
  constant : ∀ ty k, m.value v = .ok ⟨ty, .constant k⟩ →
    ∃ c, constantWord? k = some c ∧ o.form = .imm c
  width : ∀ ty kind, m.value v = .ok ⟨ty, kind⟩ → (∀ k, kind ≠ .constant k) →
    ty.width? = some o.width

/-- The constants that steps are folded for. -/
theorem indexWord?_of_constantInt {place : ValueId → Option Operand}
    (hc : m.constantInt v = .ok (some c)) :
    indexWord? m place h σ v = some c.toBitVec := by
  rw [IR.Module.constantInt, bind_eq_ok] at hc
  obtain ⟨⟨ty, kind⟩, hv, hc⟩ := hc
  cases kind with
  | constant k => cases k <;> cases hc <;> simp only [indexWord?, hv] <;> rfl
  | _ => cases hc

theorem indexWord?_of_variable {place : ValueId → Option Operand} {kind : IR.ValueKind}
    {w : Nat} (hv : m.value v = .ok ⟨ty, kind⟩) (hkind : ∀ k, kind ≠ .constant k)
    (ho : place v = some o) (hw : ty.width? = some w) :
    indexWord? m place h σ v =
      some (widened ty.isSigned 64 ((h.value σ o).setWidth w)) := by
  cases kind with
  | constant k => exact absurd rfl (hkind k)
  | argument | instruction | function | global | block =>
    simp only [indexWord?, hv, ho, hw]
    rfl

/--
All but the constants of steps are read from their operands, `undef` as the immediate that
it is bound to.
-/
theorem indexWord?_of_readable {place : ValueId → Option Operand} {n : Nat}
    (hc : m.constantInt v = .ok none) (hty : m.valueTy v = .ok ty) (ho : place v = some o)
    (hread : Readable m n v o) :
    indexWord? m place h σ v =
      some (widened ty.isSigned 64 ((h.value σ o).setWidth o.width)) := by
  obtain ⟨kind, hv⟩ := valueTy_eq_ok.mp hty
  by_cases hkind : ∃ k, kind = .constant k
  · obtain ⟨k, rfl⟩ := hkind
    obtain ⟨c, hword, hform⟩ := hread.constant ty k hv
    have hvalue : h.value σ o = c.toBitVec := by
      simp only [Host.value, Operand.needsAddress, Host.read, hform]
      rfl
    rw [IR.Module.constantInt, bind_eq_ok] at hc
    obtain ⟨data, hv', hc⟩ := hc
    cases hv.symm.trans hv'
    cases k with
    | undef =>
      cases hword
      have hzero : widened ty.isSigned 64 ((0 : BitVec 64).setWidth o.width) = 0 := by
        cases ty.isSigned <;> simp [widened, BitVec.signExtend]
      rw [hvalue]
      simp only [indexWord?, hv]
      exact congrArg some hzero.symm
    | int | null | zero => cases hc
    | _ => cases hword
  · have hvariable : ∀ k, kind ≠ .constant k := fun k hk => hkind ⟨k, hk⟩
    exact indexWord?_of_variable hv hvariable ho (hread.width ty kind hv hvariable)

/-! ## Steps -/

/-- A word that depends on the operands of values, and on the state at the start. -/
abbrev Measure := (ValueId → Option Operand) → Origin → Option (BitVec 64)

variable {D : Measure}

/-- The indices `vs` that are no constant steps can be read underway from `O`. -/
def AllReadable (m : IR.Module) (vs : List ValueId) (place : ValueId → Option Operand)
    (O : Origin) : Prop :=
  ∀ v ∈ vs, m.constantInt v = .ok none → ∀ o, place v = some o → Readable m O.vregs v o

/--
Selection brought the word `D` into the register of an id, by reading the indices `vs`.
-/
def Obtains (env : Env) (vs : List ValueId) (D : Measure) (s s' : State) (x : OperandId) :
    Prop :=
  ∃ code, Path env s s' code ∧ ∀ (A : Arena) (final : State), Towards A final s' →
    ∃ o, A.get? x = some o ∧
    ∀ O : Origin, AllReadable env.module vs (final.placeIn A) O →
      ∃ y, D (final.placeIn A) O = some y ∧ Brings O s.vregs code s'.vregs o y

/--
Selection led a partial address to another one, at the distance `D`, by reading the
indices `vs`.
-/
def Walks (env : Env) (vs : List ValueId) (D : Measure) (s : State) (a : Partial)
    (s' : State) (a' : Partial) : Prop :=
  ∃ code, Path env s s' code ∧ ∀ (A : Arena) (final : State), Towards A final s' →
    ∀ b, A.get? a.base = some b → ∃ b', A.get? a'.base = some b' ∧ ∀ O : Origin,
      AllReadable env.module vs (final.placeIn A) O →
        ∃ d, D (final.placeIn A) O = some d ∧
        Travels O s.vregs ⟨b, a.disp⟩ code s'.vregs ⟨b', a'.disp⟩ d

namespace Walks

variable {a a1 a' : Partial} {D' : Measure}

theorem refl (a : Partial) : Walks env vs (fun _ _ => some 0) s a s a :=
  ⟨[], .refl s, fun _ _ _ b hb => ⟨b, hb, fun O _ => ⟨0, rfl, .refl O _ _⟩⟩⟩

theorem trans {vs' : List ValueId} (h : Walks env vs D s a t a1)
    (h' : Walks env vs' D' t a1 s' a') :
    Walks env (vs ++ vs')
    (fun place O => do pure ((← D place O) + (← D' place O))) s a s' a' := by
  obtain ⟨code, p1, h⟩ := h
  obtain ⟨code', p2, h'⟩ := h'
  refine ⟨code ++ code', p1.trans p2, fun A final ht b hb => ?_⟩
  obtain ⟨b1, hb1, h⟩ := h A final (ht.path p2) b hb
  obtain ⟨b', hb', h'⟩ := h' A final ht b1 hb1
  refine ⟨b', hb', fun O hread => ?_⟩
  obtain ⟨d, hd, hd'⟩ := h O fun v hv => hread v (List.mem_append_left _ hv)
  obtain ⟨e, he, he'⟩ := h' O fun v hv => hread v (List.mem_append_right _ hv)
  exact ⟨d + e, by simp only [hd, he]; rfl, hd'.trans he'⟩

theorem imp (h : Walks env vs D s a s' a')
    (hD : ∀ place O d, D place O = some d → D' place O = some d) :
    Walks env vs D' s a s' a' := by
  obtain ⟨code, hp, h⟩ := h
  refine ⟨code, hp, fun A final ht b hb => ?_⟩
  obtain ⟨b', hb', h⟩ := h A final ht b hb
  refine ⟨b', hb', fun O hread => ?_⟩
  obtain ⟨d, hd, htravels⟩ := h O hread
  exact ⟨d, hD _ _ _ hd, htravels⟩

end Walks

/-- An address is computed into the next register. -/
theorem loadAddress_code {index : Option (OperandId × UInt8)}
    (h : Runs (loadAddress address index) env s id s') :
    ∃ code q a, Path env s s' code ∧ q.index.toNat = s.vregs ∧ s'.vregs = s.vregs + 1 ∧
      address.Reference s' index a ∧
      ∀ A : Arena, s'.Within A → A.get? id = some ⟨.virt q, .ptr⟩ ∧
        code = [⟨.lea, [⟨.virt q, .ptr⟩, ⟨.mem a, .ptr⟩]⟩] := by
  simp only [loadAddress, runs_bind, runs_pure] at h
  obtain ⟨dst, s1, hdst, memory, s2, hmem, _, s3, hlea, rfl, rfl⟩ := h
  obtain ⟨q, hq, n1, p1, hget⟩ := newVReg_adds hdst
  obtain ⟨a, hreference, hadds⟩ := memoryOperand_adds hmem
  obtain ⟨os, p3, n3, -, hos⟩ := emit_path hlea
  refine ⟨_, q, a, (p1.then hadds.path).after p3, hq, by rw [n3, hadds.vregs, n1],
    (hreference.path hadds.path).path p3, fun A hA => ?_⟩
  have hA2 := p3.within hA
  obtain ⟨x, y, hx, hy, rfl⟩ := mapM_pair.mp (hos A hA)
  cases (hget A (hadds.path.within hA2)).symm.trans hx
  cases (hadds.get A hA2).symm.trans hy
  exact ⟨hx, rfl⟩

theorem loadAddress_walks (h : Runs (loadAddress address none) env s id s') :
    Walks env vs (fun _ _ => some 0) s address s' ⟨id, 0⟩ := by
  obtain ⟨code, q, a, hpath, hq, hvregs, ⟨r, hr, rfl⟩, hcode⟩ := loadAddress_code h
  refine ⟨code, hpath, fun A final ht b hb => ?_⟩
  obtain ⟨hid, rfl⟩ := hcode A ht.within
  obtain ⟨b', hb', hreg⟩ := hr A ht.within
  cases hb.symm.trans hb'
  rw [hvregs]
  exact ⟨_, hid, fun O _ => ⟨0, rfl, .lea hreg hq⟩⟩

theorem flush_walks (h : Runs (flush address) env s id s') :
    Walks env vs (fun _ _ => some 0) s address s' ⟨id, 0⟩ := by
  unfold flush at h
  split at h
  · next hzero =>
    obtain ⟨rfl, rfl⟩ := runs_pure.mp h
    obtain ⟨base, disp⟩ := address
    cases hzero
    exact .refl _
  · exact loadAddress_walks h

/-- A word in a register is added, multiplied by a scale. -/
theorem loadAddress_indexed_walks (hindex : Obtains env vs D s t x)
    (h : Runs (loadAddress address (some (x, scale))) env t id s') :
    Walks env vs (fun place O => (D place O).map (· * scale.toBitVec.setWidth 64)) s
      address s' ⟨id, 0⟩ := by
  obtain ⟨code, hp, hindex⟩ := hindex
  obtain ⟨code', q, a, hp', hq, hvregs, ⟨r, i, hr, hi, rfl⟩, hcode⟩ := loadAddress_code h
  refine ⟨code ++ code', hp.trans hp', fun A final ht b hb => ?_⟩
  obtain ⟨hid, rfl⟩ := hcode A ht.within
  obtain ⟨b', hb', hreg⟩ := hr A ht.within
  cases hb.symm.trans hb'
  obtain ⟨o, ho, hbrings⟩ := hindex A final (ht.path hp')
  obtain ⟨o', ho', hireg⟩ := hi A ht.within
  cases ho.symm.trans ho'
  rw [hvregs]
  refine ⟨_, hid, fun O hread => ?_⟩
  obtain ⟨y, hy, hbrings⟩ := hbrings O hread
  exact ⟨_, by simp only [hy]; rfl, .lea_indexed hreg hireg hbrings hq⟩

/-- An immediate is copied to a register of its own. -/
theorem copyImm_obtains {src : OperandId} (himm : Runs (imm c .i64) env s src t)
    (h : Runs (copyToVReg src) env t id s') :
    Obtains env vs (fun _ _ => some c.toBitVec) s s' id := by
  have hadds := imm_adds himm
  obtain ⟨code, hp, hf⟩ := copyToVReg_fetch h
  refine ⟨code, hadds.path.after hp, fun A final ht => ?_⟩
  obtain ⟨o, o', ho, ho', hfetch, r, rfl⟩ := hf A ht.within
  cases (hadds.get A (hp.within ht.within)).symm.trans ho
  rw [hadds.vregs] at hfetch
  exact ⟨_, ho', fun O _ => ⟨_, rfl, hfetch.brings_imm rfl⟩⟩

theorem addWideOffset_walks {base : OperandId}
    (h : Runs (addWideOffset base offset) env s a' s') :
    Walks env vs (fun _ _ => some offset.toBitVec) s ⟨base, 0⟩ s' a' := by
  simp only [addWideOffset, runs_bind, runs_pure] at h
  obtain ⟨src, s1, himm, amount, s2, hcopy, dst, s3, hload, rfl, rfl⟩ := h
  refine (loadAddress_indexed_walks (copyImm_obtains himm hcopy) hload).imp ?_
  rintro - - d ⟨⟩
  show some offset.toBitVec = some (offset.toBitVec * 1#64)
  rw [BitVec.mul_one]

theorem toInt_of_toI32? {x : Int32} (h : Word.toI32? k = some x) : x.toInt = k := by
  unfold Word.toI32? at h
  split at h
  · next hfits =>
    cases h
    exact Int32.toInt_ofInt_of_le hfits.1 hfits.2
  · cases h

theorem toInt_of_toI64? {x : Int64} (h : Word.toI64? k = some x) : x.toInt = k := by
  unfold Word.toI64? at h
  split at h
  · next hfits =>
    cases h
    exact Int64.toInt_ofInt_of_le hfits.1 hfits.2
  · cases h

theorem addI64_eq_ok {a b total : Int64} (h : Word.addI64 a b = .ok total) :
    total.toInt = a.toInt + b.toInt := by
  unfold Word.addI64 at h
  split at h
  · next hsum =>
    cases h
    exact toInt_of_toI64? hsum
  · cases h

/-- A constant offset is folded, or the address flushed first. -/
theorem addOffset_walks (h : Runs (addOffset address offset) env s a' s') :
    Walks env vs (fun _ _ => some offset.toBitVec) s address s' a' := by
  simp only [addOffset, runs_bind, runs_checkWord] at h
  obtain ⟨total, _, ⟨htotal, rfl⟩, h⟩ := h
  split at h
  · next disp hdisp =>
    obtain ⟨rfl, rfl⟩ := runs_pure.mp h
    have hsum : disp.toInt = address.disp.toInt + offset.toInt := by
      rw [toInt_of_toI32? hdisp, addI64_eq_ok htotal, Int32.toInt_toInt64]
    exact ⟨[], .refl s, fun A final _ b hb => ⟨b, hb, fun O _ => ⟨_, rfl, .fold hsum⟩⟩⟩
  · simp only [runs_bind] at h
    obtain ⟨base, s1, hflush, h⟩ := h
    -- From the flushed address on, the offset is all that is left to add.
    have hrest : Walks env vs (fun _ _ => some offset.toBitVec) s1 ⟨base, 0⟩ s' a' := by
      split at h
      · next disp hdisp =>
        obtain ⟨rfl, rfl⟩ := runs_pure.mp h
        have hsum : disp.toInt = (0 : Int32).toInt + offset.toInt := by
          rw [toInt_of_toI32? hdisp]
          exact (Int.zero_add _).symm
        exact ⟨[], .refl _,
          fun A final _ b hb => ⟨b, hb, fun O _ => ⟨_, rfl, .fold hsum⟩⟩⟩
      · exact addWideOffset_walks h
    have hflushed : Walks env [] (fun _ _ => some 0) s address s1 ⟨base, 0⟩ :=
      flush_walks hflush
    refine (hflushed.trans hrest).imp ?_
    rintro - - d ⟨⟩
    show some offset.toBitVec = some (0#64 + offset.toBitVec)
    rw [BitVec.zero_add]

theorem indexRegister_code (h : Runs (indexRegister v) env s id s') :
    ∃ ty root code, Path env s s' code ∧ env.module.valueTy v = .ok ty ∧
      s'.values.find? v = some root ∧
      ∀ A : Arena, s'.Within A → ∃ o x, A.get? root = some o ∧ A.get? id = some x ∧
        IndexCode ty.isSigned s.vregs o x code s'.vregs := by
  simp only [indexRegister, runs_bind, runs_isSigned, runs_storage] at h
  obtain ⟨signed, _, ⟨ty, hty, rfl, rfl⟩, mid, s1, hmid, reg, s2, hreg, _, _,
    ⟨x, hx, rfl⟩, h⟩ := h
  obtain ⟨c, hc, -, rfl⟩ := runs_operand.mp hx
  obtain ⟨root, c1, p1, hroot, f1⟩ := valueOperand_fetch hmid
  obtain ⟨c2, p2, f2⟩ := intoRegister_fetch hreg
  -- What was fetched is the register that is extended, if it is narrow.
  have hfetch : ∀ A : Arena, s2.Within A →
    ∃ o x1, A.get? root = some o ∧ A.get? reg = some x ∧
      Fetch s.vregs o x1 c1 s1.vregs ∧ Fetch s1.vregs x1 x c2 s2.vregs ∧
      x.isRegister = true := by
    intro A hA
    obtain ⟨o, x1, ho, hx1, value, -⟩ := f1 A (p2.within hA)
    obtain ⟨x₁', x', hx₁', hx', register, held⟩ := f2 A hA
    cases hx1.symm.trans hx₁'
    cases (operand_get hx hA).symm.trans hx'
    exact ⟨o, x1, ho, hx', value, register, held⟩
  split at h
  · next hwide =>
    obtain ⟨rfl, rfl⟩ := runs_pure.mp h
    refine ⟨ty, root, c1 ++ c2, p1.trans p2, hty, p2.values hroot, fun A hA => ?_⟩
    obtain ⟨o, x1, ho, hx, value, register, held⟩ := hfetch A hA
    refine ⟨o, x, ho, hx, .whole value register held ?_⟩
    rw [Operand.width, Storage.width, hwide]
    rfl
  · simp only [runs_bind, runs_pure] at h
    obtain ⟨wide, s3, hnew, _, s4, hemit, rfl, rfl⟩ := h
    obtain ⟨r, c3, hr, n3, p3, f3⟩ := fill_path hnew hemit
    refine ⟨ty, root, _, p1.trans (p2.trans p3), hty, p3.values (p2.values hroot),
      fun A hA => ?_⟩
    obtain ⟨o, x1, ho, hx, value, register, held⟩ := hfetch A (p3.within hA)
    obtain ⟨y, hy, hget, rfl⟩ := f3 A hA
    cases hx.symm.trans hy
    rw [n3]
    exact ⟨o, _, ho, hget, .extended value register held hr⟩

/-- The word of an index that is no constant arrives in its register. -/
theorem indexRegister_obtains (hc : env.module.constantInt v = .ok none)
    (h : Runs (indexRegister v) env s id s') :
    Obtains env [v]
    (fun place O => indexWord? env.module place O.host O.cpu v) s s' id := by
  obtain ⟨ty, root, code, hp, hty, hroot, hcode⟩ := indexRegister_code h
  refine ⟨code, hp, fun A final ht => ?_⟩
  obtain ⟨o, x, ho, hx, hindex⟩ := hcode A ht.within
  refine ⟨x, hx, fun O hread => ?_⟩
  have hplace : final.placeIn A v = some o := by
    rw [State.placeIn, ht.values v root hroot]
    exact ho
  have hreadable := hread v (by simp) hc o hplace
  exact ⟨_, indexWord?_of_readable hc hty hplace hreadable,
    hindex.brings hreadable.source⟩

/-- The distance of a step over elements of a size. -/
def elementDistance (m : IR.Module) (v : ValueId) (size : UInt64) : Measure :=
  fun place O =>
  (indexWord? m place O.host O.cpu v).map (· * size.toBitVec)

theorem scaleOf?_eq_some (h : scaleOf? size = some scale) :
    scale.toBitVec.setWidth 64 = size.toBitVec := by
  unfold scaleOf? at h
  split at h
  · next hsmall =>
    cases h
    apply BitVec.eq_of_toNat_eq
    have hlt : size.toNat < 256 := hsmall.1
    rw [BitVec.toNat_setWidth, UInt8.toNat_toBitVec, UInt64.toNat_toUInt8,
      UInt64.toNat_toBitVec]
    omega
  · cases h

/-- A size that is no scale: the index is multiplied and added. -/
theorem addProduct_walks (hindex : Obtains env vs D s t x)
    (h : Runs (addProduct address x size) env t a' s') :
    Walks env vs (fun place O => (D place O).map (· * size.toBitVec)) s address
      s' a' := by
  obtain ⟨code, hp, hindex⟩ := hindex
  simp only [addProduct, runs_bind, runs_pure] at h
  obtain ⟨product, s1, h1, _, s2, h2, im, s3, h3, factor, s4, h4, _, s5, h5, sum, s6, h6,
    _, s7, h7, _, s8, h8, rfl, rfl⟩ := h
  obtain ⟨p, c2, hp2, n2, p2, f2⟩ := fill_path h1 h2
  obtain ⟨c4, p4, f4⟩ : Obtains env vs _ s2 s4 factor := copyImm_obtains h3 h4
  obtain ⟨os5, p5, n5, -, f5⟩ := emit_path h5
  obtain ⟨q, c7, hq7, n7, p7, f7⟩ := fill_path h6 h7
  obtain ⟨os8, p8, n8, -, f8⟩ := emit_path h8
  have path := p2.trans (p4.trans (p5.trans (p7.trans p8)))
  refine ⟨_, hp.trans path, fun A final ht b hb => ?_⟩
  have w7 := p8.within ht.within
  have w5 := p7.within w7
  have w2 := p4.within (p5.within w5)
  obtain ⟨o, ho, hbrings⟩ := hindex A final (ht.path path)
  obtain ⟨f, hf, hfactor⟩ := f4 A final (ht.path (p5.trans (p7.trans p8)))
  -- The operands of the four instructions.
  obtain ⟨_, hy2, hproduct, rfl⟩ := f2 A w2
  obtain ⟨_, _, hx5, hy5, rfl⟩ := mapM_pair.mp (f5 A w5)
  obtain ⟨_, hy7, hsum, rfl⟩ := f7 A w7
  obtain ⟨_, _, hx8, hy8, rfl⟩ := mapM_pair.mp (f8 A ht.within)
  cases ho.symm.trans hy2
  cases hproduct.symm.trans hx5
  cases hf.symm.trans hy5
  cases hb.symm.trans hy7
  cases hsum.symm.trans hx8
  cases hproduct.symm.trans hy8
  refine ⟨_, hsum, fun O hread => ?_⟩
  obtain ⟨y, hy, hbrings⟩ := hbrings O hread
  obtain ⟨_, ⟨⟩, hfactor⟩ := hfactor O hread
  rw [n2] at hfactor
  rw [n8, n7, n5]
  rw [n5] at hq7
  refine ⟨y * size.toBitVec, by simp only [hy]; rfl, ?_⟩
  exact .product hbrings hp2 hfactor hq7

theorem addScaledIndex_walks (hc : env.module.constantInt v = .ok none)
    (h : Runs (addScaledIndex address v size) env s a' s') :
    Walks env [v] (elementDistance env.module v size) s address s' a' := by
  simp only [addScaledIndex, runs_bind] at h
  obtain ⟨x, s1, hx, h⟩ := h
  have hindex := indexRegister_obtains hc hx
  split at h
  · next scale hscale =>
    simp only [runs_bind, runs_pure] at h
    obtain ⟨dst, s2, hload, rfl, rfl⟩ := h
    have hwalk := loadAddress_indexed_walks hindex hload
    rw [scaleOf?_eq_some hscale] at hwalk
    exact hwalk
  · exact addProduct_walks hindex h

theorem elementOffset_eq_ok {step : Int64}
    (h : elementOffset gep step size = .ok offset) :
    offset.toBitVec = step.toBitVec * size.toBitVec := by
  unfold elementOffset at h
  split at h
  · next hproduct =>
    cases h
    have hint := toInt_of_toI64? hproduct
    have hstep : step.toBitVec = BitVec.ofInt 64 step.toInt := BitVec.ofInt_toInt.symm
    have hsize : size.toBitVec = BitVec.ofInt 64 size.toInt64.toInt :=
      (BitVec.ofInt_toInt (x := size.toBitVec)).symm
    rw [hstep, hsize, ← BitVec.ofInt_mul, ← hint]
    exact BitVec.ofInt_toInt.symm
  · exact absurd h violate_ne_ok

/--
What a step over elements adds: a constant multiple of their size, or an index times their
size.
-/
theorem stepElement_cases (h : Runs (stepElement gep address element v) env s a' s') :
    ∃ size, element.size = .ok size ∧
      ((∃ step offset, env.module.constantInt v = .ok (some step) ∧
        elementOffset gep step size = .ok offset ∧
        Runs (addOffset address offset) env s a' s') ∨
      env.module.constantInt v = .ok none ∧
        Runs (addScaledIndex address v size) env s a' s') := by
  simp only [stepElement, runs_bind, runs_checkWord, runs_sourceModule, runs_check] at h
  obtain ⟨size, _, ⟨hsize, rfl⟩, _, _, ⟨rfl, rfl⟩, k, _, ⟨hk, rfl⟩, h⟩ := h
  refine ⟨size, hsize, ?_⟩
  cases k with
  | some step =>
    simp only [runs_bind, runs_check] at h
    obtain ⟨offset, _, ⟨hoffset, rfl⟩, h⟩ := h
    exact .inl ⟨step, offset, hk, hoffset, h⟩
  | none => exact .inr ⟨hk, h⟩

/-- Stepping over elements. -/
theorem stepElement_walks (h : Runs (stepElement gep address element v) env s a' s') :
    ∃ size, element.size = .ok size ∧
      Walks env [v] (elementDistance env.module v size) s address s' a' := by
  obtain ⟨size, hsize, ⟨step, offset, hk, hoffset, hadd⟩ | ⟨hk, hadd⟩⟩ :=
    stepElement_cases h
  · refine ⟨size, hsize, (addOffset_walks hadd).imp ?_⟩
    rintro place O d ⟨⟩
    rw [elementDistance, indexWord?_of_constantInt hk, elementOffset_eq_ok hoffset]
    rfl
  · exact ⟨size, hsize, addScaledIndex_walks hk hadd⟩

theorem memberIndex_eq_ok {index : Int64} {position : Nat}
    (h : memberIndex gep fields index = .ok (position, ty)) :
    index.toBitVec.toNat = position ∧ fields[position]? = some ty := by
  unfold memberIndex at h
  split at h
  · next hnonneg =>
    split at h
    · next hfield =>
      cases h
      have hint : index.toInt = _ := BitVec.toInt_eq_toNat_cond index.toBitVec
      exact ⟨by split at hint <;> omega, hfield⟩
    · exact absurd h violate_ne_ok
  · exact absurd h violate_ne_ok

/-- What is left of a distance after a step of distance `D` into a type. -/
def Splits (m : IR.Module) (ty : Ty) (v : ValueId) (D : Measure) (ty' : Ty) : Prop :=
  ∀ place O d rest further, D place O = some d →
    ty'.distance? (indexWord? m place O.host O.cpu) rest = some further →
    ty.distance? (indexWord? m place O.host O.cpu) (v :: rest) = some (d + further)

theorem stepElement_splits (hty : Ty.Elements ty element)
    (h : Runs (stepElement gep address element v >>= fun a => pure (a, element)) env s
      (a', ty') s') :
    ∃ D, Walks env [v] D s address s' a' ∧ Splits env.module ty v D ty' := by
  simp only [runs_bind, runs_pure] at h
  obtain ⟨_, _, hstep, heq, rfl⟩ := h
  cases heq
  obtain ⟨size, hsize, hwalks⟩ := stepElement_walks hstep
  refine ⟨_, hwalks, fun place O d rest further hd hfurther => ?_⟩
  obtain ⟨index, hindex, rfl⟩ := Option.map_eq_some_iff.mp hd
  exact Ty.distance?_element hty hindex hsize hfurther

/-- What a step into a member adds: its entry in the table of offsets. -/
theorem stepMember_adds
    (h : Runs (stepMember gep address fields packed v) env s (a', ty') s') :
    ∃ k position layout, env.module.constantInt v = .ok (some k) ∧
      memberIndex gep fields k = .ok (position, ty') ∧
      Ty.structLayout packed fields = .ok layout ∧
      Runs (addOffset address (layout.offsets.getD position 0).toInt64) env s a' s' := by
  simp only [stepMember, runs_bind, runs_sourceModule, runs_check] at h
  obtain ⟨_, _, ⟨rfl, rfl⟩, k, _, ⟨hk, rfl⟩, h⟩ := h
  cases k with
  | none => exact absurd (runs_check.mp h).1 violate_ne_ok
  | some k =>
    simp only [runs_bind, runs_check, runs_checkWord, runs_pure] at h
    obtain ⟨⟨position, field⟩, _, ⟨hmember, rfl⟩, layout, _, ⟨hlayout, rfl⟩, a, _, hadd,
      heq, rfl⟩ := h
    cases heq
    exact ⟨k, position, layout, hk, hmember, hlayout, hadd⟩

theorem stepMember_splits {name : Option String}
    (h : Runs (stepMember gep address fields packed v) env s (a', ty') s') :
    ∃ D, Walks env [v] D s address s' a' ∧
      Splits env.module (.struct name fields packed) v D ty' := by
  obtain ⟨k, position, layout, hk, hmember, hlayout, hadd⟩ := stepMember_adds h
  obtain ⟨rfl, hfield⟩ := memberIndex_eq_ok hmember
  have hlt : k.toBitVec.toNat < layout.offsets.length := by
    rw [offsets_length hlayout]
    exact (List.getElem?_eq_some_iff.mp hfield).1
  refine ⟨_, addOffset_walks hadd, fun place O d rest further hd hfurther => ?_⟩
  cases hd
  rw [List.getD_eq_getElem?_getD, List.getElem?_eq_getElem hlt]
  exact Ty.distance?_member (indexWord?_of_constantInt hk) hlayout
    (List.getElem?_eq_getElem hlt) hfield hfurther

/-- One step: its distance and the one from where it leads make up the whole. -/
theorem stepInto_splits (h : Runs (stepInto gep address ty v) env s (a', ty') s') :
    ∃ D, Walks env [v] D s address s' a' ∧ Splits env.module ty v D ty' := by
  unfold stepInto at h
  split at h
  · exact stepMember_splits h
  · exact stepElement_splits (.ptr _) h
  · exact stepElement_splits (.array _ _) h
  · exact absurd (runs_check.mp h).1 violate_ne_ok

/-- A walk advances by the distance that its indices lead. -/
theorem walk_walks (h : Runs (walk gep indices address ty) env s a' s') :
    Walks env indices
      (fun place O => ty.distance? (indexWord? env.module place O.host O.cpu) indices)
      s address s' a' := by
  induction indices generalizing s address ty with
  | nil =>
    obtain ⟨rfl, rfl⟩ := runs_pure.mp h
    exact (Walks.refl _).imp fun place O d hd => (Ty.distance?_nil _ ty).trans hd
  | cons v rest ih =>
    simp only [walk, runs_bind] at h
    obtain ⟨⟨a1, ty1⟩, s1, hstep, h⟩ := h
    obtain ⟨D, hwalks, hsplits⟩ := stepInto_splits hstep
    refine (hwalks.trans (ih h)).imp fun place O d hd => ?_
    obtain ⟨x, hx, hd⟩ := Option.bind_eq_some_iff.mp hd
    obtain ⟨y, hy, hd⟩ := Option.bind_eq_some_iff.mp hd
    cases hd
    exact hsplits place O x rest y hx hy

/-! ## Element addresses -/

/-- The operand that a value is bound to in the function being built. -/
def State.place (s : State) (v : ValueId) : Option Operand := do
  let id ← s.values.find? v
  let c ← s.current
  c.machine.operands[id.index.toNat]?

theorem State.place_eq_some : s.place v = some o ↔ s.Locates v o := by
  simp only [State.place, Option.bind_eq_bind, Option.bind_eq_some_iff, State.Locates,
    State.Holds]

theorem placeIn_arena {c : Current} (hc : s.current = some c)
    (hsmall : c.machine.operands.size ≤ 2 ^ 32) :
    s.placeIn (c.arena hsmall) = s.place := by
  funext v
  simp only [State.placeIn, State.place, hc, Option.bind_eq_bind, Option.bind_some]
  cases s.values.find? v with
  | none => rfl
  | some id => exact Array.getElem?_toList ..

/-- The code of an element address. -/
theorem lowerGep_code {i : Inst} {base : ValueId} (hops : i.operands = base :: indices)
    (hty : env.module.valueTy base = .ok ty) (h : Runs (lowerGep i) env s id s') :
    ∃ root code, Path env s s' code ∧ s'.values.find? base = some root ∧
      ∀ (A : Arena), s'.Within A →
      ∃ o d, A.get? root = some o ∧ A.get? id = some d ∧ ∀ O : Origin, O.vregs = s.vregs →
        o.Source s.vregs 64 →
        AllReadable env.module indices (s'.placeIn A) O →
          ∃ τ distance, O.host.run code O.cpu = some (.falls τ) ∧
          ty.distance? (indexWord? env.module (s'.placeIn A) O.host O.cpu) indices =
            some distance ∧
          O.host.value τ d = O.host.value O.cpu o + distance := by
  simp only [lowerGep, hops, runs_bind, runs_sourceModule, runs_check] at h
  obtain ⟨reg, s1, hreg, _, _, ⟨rfl, rfl⟩, ty', _, ⟨hty', rfl⟩, address, s2, hwalk, h⟩ :=
    h
  cases hty.symm.trans hty'
  obtain ⟨root, mid, c1, c2, n, p1, hroot, f1⟩ := addressRegister_fetch hreg
  have hlast : Walks env [] (fun _ _ => some 0) s2 address s' ⟨id, 0⟩ :=
    loadAddress_walks h
  obtain ⟨c3, p3, f3⟩ := (walk_walks hwalk).trans hlast
  refine ⟨root, c1 ++ c2 ++ c3, p1.trans p3, p3.values hroot, fun A hA => ?_⟩
  obtain ⟨⟨o, x, ho, hx, value, -⟩, x', b, hx', hb, register, held⟩ := f1 A (p3.within hA)
  cases hx.symm.trans hx'
  obtain ⟨d, hd, htravels⟩ := f3 A s' ⟨hA, fun _ _ hv => hv⟩ b hb
  refine ⟨o, d, ho, hd, fun O hO hsource hread => ?_⟩
  have hxs := value.source hsource
  have hbs := register.source hxs
  have hle : O.vregs ≤ s1.vregs := hO ▸ p1.vregs_le
  obtain ⟨distance, hdistance, htravels⟩ := htravels O (by simpa using hread)
  obtain ⟨-, -, hrun⟩ := htravels hle ⟨held, hbs.steady, hbs.width⟩
  -- The base arrives in its register, and the walk starts there.
  obtain ⟨σ1, run1, keeps1, value1⟩ := value.run_pointer hsource O.host O.cpu
  obtain ⟨σ2, run2, keeps2, value2⟩ := register.run_pointer hxs O.host σ1
  obtain ⟨τ, run3, -, hword⟩ := hrun σ2 (by
    rw [hO]
    exact keeps1.trans (keeps2.mono value.le))
  obtain ⟨y, hy, hdistance⟩ := Option.bind_eq_some_iff.mp hdistance
  cases hdistance
  refine ⟨τ, y, ?_, hy, ?_⟩
  · rw [List.append_assoc, Host.run_append_of_falls run1,
      Host.run_append_of_falls run2, run3]
  · have hzero : (0 : Int32).toBitVec.signExtend 64 = 0#64 := rfl
    simpa only [Spot.word, value2, value1, hzero, BitVec.add_zero,
      BitVec.ofNat_eq_ofNat] using hword

/--
The code of an element address leaves in its result the address in the base, plus the
distance that the indices lead from there. Addresses and distances are words, so they wrap
around. In a module that is not built but read from elsewhere, an instruction may name a
constant as its result; no index may be such a constant.
-/
theorem lowerGep_address {func : IR.FuncId} {i : Inst} {base : ValueId}
    {indices : List ValueId} {element : Ty} {c : Current} (hs : Reached env func s)
    (hops : i.operands = base :: indices)
    (hty : env.module.valueTy base = .ok (.ptr element))
    (hconstants : ∀ v ∈ indices, ∀ ty c, env.module.value v = .ok ⟨ty, .constant c⟩ →
      ∀ j k, env.module.inst j = .ok k → k.value ≠ v)
    (hrun : Runs (lowerGep i) env s id s') (hc : s'.current = some c)
    (hsmall : c.machine.operands.size ≤ 2 ^ 32)
    (hbase : ∀ o, s'.Locates base o → o.width = 64)
    (hindices : ∀ v ∈ indices, ∀ ty kind o, env.module.value v = .ok ⟨ty, kind⟩ →
      (∀ k, kind ≠ .constant k) →
      s'.Locates v o → ty.width? = some o.width) :
    ∃ insts code o r, Gains s s' insts ∧ c.machine.decode insts = some code ∧
      s'.Locates base o ∧
      s'.Holds id ⟨.virt r, .ptr⟩ ∧ ∀ (h : Host) (σ : Cpu), ∃ τ distance,
        (Ty.ptr element).distance? (indexWord? env.module s'.place h σ) indices =
          some distance ∧
        h.run code σ = some (.falls τ) ∧ τ.virt r = h.value σ o + distance := by
  obtain ⟨root, code, hpath, hroot, hcode⟩ := lowerGep_code hops hty hrun
  obtain ⟨o, d, ho, hd, hmeaning⟩ := hcode _ (within_arena hc hsmall)
  obtain ⟨-, r, -, -, hresult⟩ := lowerGep_quietly hrun
  cases hd.symm.trans (hresult _ (within_arena hc hsmall))
  rw [placeIn_arena hc hsmall] at hmeaning
  replace ho := holds_of_arena hc ho
  obtain ⟨insts, hgains, hdecodes⟩ := hpath.gains hc
  have hs' := State.Small.of_current hc hsmall
  obtain ⟨hsource, -⟩ := hs.source hpath hs' hroot ho
  rw [hbase o ⟨root, hroot, ho⟩] at hsource
  -- The operands of indices are there before the code, and constants are immediates.
  obtain ⟨f, hf⟩ := hs.settled
  have hspelled := kept_spelled.follows hf.current hs.spelled (.of_path hpath)
  have hread : ∀ (h : Host) (σ : Cpu),
      AllReadable env.module indices s'.place ⟨h, σ, s.vregs⟩ := by
    intro h σ v hv _ x hx
    obtain ⟨id, hid, hx⟩ := State.place_eq_some.mp hx
    obtain ⟨hxs, -⟩ := hs.source hpath hs' hid hx
    refine ⟨hxs, fun ty k hk => ?_,
      fun ty kind hk hvariable => hindices v hv ty kind x hk hvariable ⟨id, hid, hx⟩⟩
    obtain ⟨x', hx', hword⟩ := hspelled v id hid (hconstants v hv ty k hk) ty k hk hs'
    cases hx.unique hx'
    exact hword
  refine ⟨insts, code, o, r, hgains, Machine.Function.decode_eq_some.mpr hdecodes,
    ⟨root, hroot, ho⟩, holds_of_arena hc hd, fun h σ => ?_⟩
  obtain ⟨τ, distance, hrun, hdistance, hvalue⟩ :=
    hmeaning ⟨h, σ, s.vregs⟩ rfl hsource (hread h σ)
  exact ⟨τ, distance, hdistance, hrun, hvalue⟩

/-! ## An element of nested arrays -/

/-- A row: 16 bits, and four words of 32 bits at offset 4. -/
def row : Ty := .struct none [.int .w16, .array (.int .w32) 4] false

/-- A table: a byte, and five rows of 20 bytes at offset 4. -/
def table : Ty := .struct none [.int .w8, .array row 5] false

/--
From the table at the first parameter, by the others and by the second member of table and
row.
-/
def cell : Inst := ⟨.gep, [⟨1⟩, ⟨2⟩, ⟨5⟩, ⟨3⟩, ⟨5⟩, ⟨4⟩], .ptr (.int .w32), ⟨0⟩, ⟨7⟩⟩

/--
`f(p, i, j, k)` is the address of `p[i].rows[j].words[k]`, for indices of three types.
-/
def indexing : IR.Module where
  name := "m"
  values := #[⟨.ptr
    (.function [.ptr table, .int .w32, .uint .w8, .uint .w64] (.ptr (.int .w32)) false),
    .function ⟨0⟩⟩,
    ⟨.ptr table, .argument ⟨0⟩ 0⟩, ⟨.int .w32, .argument ⟨0⟩ 1⟩,
    ⟨.uint .w8, .argument ⟨0⟩ 2⟩,
    ⟨.uint .w64, .argument ⟨0⟩ 3⟩, ⟨.int .w32, .constant (.int 1)⟩, ⟨.void, .block ⟨0⟩⟩,
    ⟨.ptr (.int .w32), .instruction ⟨0⟩⟩]
  insts := #[cell]
  blocks := #[⟨⟨0⟩, none, [⟨0⟩], ⟨6⟩⟩]
  functions :=
    #[⟨"f", ⟨[.ptr table, .int .w32, .uint .w8, .uint .w64], .ptr (.int .w32), false⟩,
      [⟨1⟩, ⟨2⟩, ⟨3⟩, ⟨4⟩], [⟨0⟩], false, ⟨0⟩⟩]
  globals := #[]

/--
The address, for a signed index of 32 bits, an unsigned one of 8 bits and one of 64 bits.
-/
theorem indexing_address :
    ∃ s s' c id, Reached ⟨indexing, .win64⟩ ⟨0⟩ s ∧
      Runs (lowerGep cell) ⟨indexing, .win64⟩ s id s' ∧
      s'.current = some c ∧ c.machine.operands.size ≤ 2 ^ 32 ∧
      (∀ v ∈ [(⟨2⟩ : ValueId), ⟨5⟩, ⟨3⟩, ⟨5⟩, ⟨4⟩], ∀ ty c,
        indexing.value v = .ok ⟨ty, .constant c⟩ →
        ∀ j k, indexing.inst j = .ok k → k.value ≠ v) ∧
      (∀ o, s'.Locates ⟨1⟩ o → o.width = 64) ∧
      (∀ v ∈ [(⟨2⟩ : ValueId), ⟨5⟩, ⟨3⟩, ⟨5⟩, ⟨4⟩], ∀ ty kind o,
        indexing.value v = .ok ⟨ty, kind⟩ →
        (∀ k, kind ≠ .constant k) → s'.Locates v o → ty.width? = some o.width) ∧
      ∃ insts code r, Gains s s' insts ∧ c.machine.decode insts = some code ∧
        s'.Holds id ⟨.virt r, .ptr⟩ ∧
        ∀ (h : Host) (σ : Cpu), ∃ τ, h.run code σ = some (.falls τ) ∧
          τ.virt r = σ.phys .rcx + (((σ.phys .rdx).setWidth 32).signExtend 64 * 104 +
            (4 + (((σ.phys .r8).setWidth 8).setWidth 64 * 20 +
              (4 + (σ.phys .r9 * 4 + 0))))) := by
  obtain ⟨s, hs, hleaves⟩ := reached_of_enters
    (show enters ⟨indexing, .win64⟩ ⟨0⟩ ⟨0⟩ (fun s =>
      leaves (lowerGep cell) ⟨indexing, .win64⟩ s fun _ s =>
        s.binds ⟨1⟩ ⟨.phys .rcx, .ptr⟩ && s.binds ⟨2⟩ ⟨.phys .rdx, .i32⟩ &&
          s.binds ⟨3⟩ ⟨.phys .r8, .i8⟩ &&
          s.binds ⟨4⟩ ⟨.phys .r9, .i64⟩) = true by decide +kernel)
  obtain ⟨id, s', hrun, htest⟩ := runs_of_leaves hleaves
  simp only [Bool.and_eq_true] at htest
  obtain ⟨⟨⟨hp, hi⟩, hj⟩, hk⟩ := htest
  obtain ⟨_, -, ⟨c, hc, -⟩, hsmall⟩ := State.exists_of_binds hp
  replace hp := State.locates_of_binds hp
  replace hi := State.locates_of_binds hi
  replace hj := State.locates_of_binds hj
  replace hk := State.locates_of_binds hk
  have hconstants : ∀ v ∈ [(⟨2⟩ : ValueId), ⟨5⟩, ⟨3⟩, ⟨5⟩, ⟨4⟩], ∀ ty c,
      indexing.value v = .ok ⟨ty, .constant c⟩ → ∀ j k, indexing.inst j = .ok k →
      k.value ≠ v := by
    intro v hv _ _ _ j k hk
    obtain rfl : k = cell := by
      simpa [indexing] using Array.mem_of_getElem? (IR.Module.inst_eq_ok.mp hk)
    simp only [List.mem_cons, List.not_mem_nil, or_false] at hv
    rcases hv with rfl | rfl | rfl | rfl | rfl <;> decide
  have hbase : ∀ o, s'.Locates ⟨1⟩ o → o.width = 64 := by
    intro o ho
    cases hp.unique ho
    rfl
  have hindices : ∀ v ∈ [(⟨2⟩ : ValueId), ⟨5⟩, ⟨3⟩, ⟨5⟩, ⟨4⟩], ∀ ty kind o,
    indexing.value v = .ok ⟨ty, kind⟩ →
      (∀ k, kind ≠ .constant k) → s'.Locates v o → ty.width? = some o.width := by
    intro v hv ty kind o hvalue hvariable ho
    simp only [List.mem_cons, List.not_mem_nil, or_false] at hv
    rcases hv with rfl | rfl | rfl | rfl | rfl
    · cases hvalue
      cases hi.unique ho
      rfl
    · cases hvalue
      exact absurd rfl (hvariable _)
    · cases hvalue
      cases hj.unique ho
      rfl
    · cases hvalue
      exact absurd rfl (hvariable _)
    · cases hvalue
      cases hk.unique ho
      rfl
  obtain ⟨insts, code, o, r, hgains, hdecode, ho, hr, hmeaning⟩ :=
    @lowerGep_address ⟨indexing, .win64⟩ s s' id ⟨0⟩ cell ⟨1⟩ [⟨2⟩, ⟨5⟩, ⟨3⟩, ⟨5⟩, ⟨4⟩]
      table c hs rfl rfl hconstants hrun hc (hsmall c hc) hbase hindices
  refine ⟨s, s', c, id, hs, hrun, hc, hsmall c hc, hconstants, hbase, hindices, insts,
    code, r, hgains, hdecode, hr, fun h σ => ?_⟩
  obtain ⟨τ, distance, hdistance, hrun, hvalue⟩ := hmeaning h σ
  cases hp.unique ho
  have hindex : ∀ {v ty j o w}, s'.Locates v o →
    indexing.value v = .ok ⟨ty, .argument ⟨0⟩ j⟩ → ty.width? = some w →
      indexWord? indexing s'.place h σ v =
      some (widened ty.isSigned 64 ((h.value σ o).setWidth w)) :=
    fun ho hv hw => indexWord?_of_variable hv (fun _ hkind => by cases hkind)
      (State.place_eq_some.mpr ho) hw
  have hmember : indexWord? indexing s'.place h σ ⟨5⟩ = some 1 := rfl
  have hcell :=
    Ty.distance?_element (.ptr table) (hindex hi rfl rfl) (show table.size =
      .ok 104 from rfl)
    (Ty.distance?_member hmember rfl rfl rfl
      (Ty.distance?_element (.array row 5) (hindex hj rfl rfl)
        (show row.size = .ok 20 from rfl)
        (Ty.distance?_member hmember rfl rfl rfl
          (Ty.distance?_element (.array (.int .w32) 4) (hindex hk rfl rfl) rfl
            (Ty.distance?_nil _ (.int .w32))))))
  refine ⟨τ, hrun,
    hvalue.trans (congrArg _ (Option.some.inj (hdistance.symm.trans hcell)))⟩

end InstSelect.Lowering
