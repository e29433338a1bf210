import InstSelect.Proofs.ElementAddresses
import InstSelect.Proofs.ExactImages
import InstSelect.Proofs.InstructionTotality

/-!
# Addresses of parts of a global

The code of an element address whose indices are constants. Each index adds the distance
between the start of an aggregate and the start of one of its parts. All of these
distances lie within one image, so their sums are words, and they add up to what the
writer of data has put before the part.

`Yields` says that a step of selection succeeds wherever there is room for its operands,
and which code it appends. It asks for nothing but a function that receives code, whatever
the calling convention.
-/

namespace InstSelect.Machine

/-- Code that falls through, and leaves memory alone. -/
def Reaches (code : List Code) (P : Host → Cpu → Cpu → Prop) : Prop :=
  ∀ (h : Host) (σ : Cpu), ∃ τ, h.run code σ = some (.falls τ) ∧
    τ.memory = σ.memory ∧ P h σ τ

end InstSelect.Machine

namespace InstSelect.Lowering

open IR (ValueId Inst Ty)
open Machine (Storage Operand OperandId VReg Code Image Reaches)

variable {env : Env} {s s' t : State} {c : Current} {α : Type} {n position : Nat}
  {id : OperandId} {v gv : ValueId} {code : List Code} {st : Storage} {stride : UInt64}
  {ty : Ty} {abi : Abi} {indices : List ValueId} {gid : IR.GlobalId} {g : IR.Global}
  {k : Int64} {inst : Inst}

/-! ## Functions being built -/

/-- What holds of a function being built, whatever the convention. -/
structure Building (env : Env) (s : State) (c : Current) : Prop where
  settled : Settled env s c
  isOpen : c.machine.isSealed = false
  counted : c.machine.Counted
  bound : ∀ v id, s.values.find? v = some id → Bound env s c v id
  blocks : ∀ b id, s.blocks.find? b = some id → id.index.toNat < c.machine.blocks.size
  insertion : ∀ id, c.block = some id → id.index.toNat < c.machine.blocks.size

namespace Building

theorem grow (h : Building env s c) (hg : Grow env s s' code) :
    ∃ c', Building env s' c' := by
  have hc := h.settled.current
  obtain ⟨c', hc'⟩ := h.settled.grow hg
  obtain ⟨d, hd, hgrown⟩ := hg.grown hc
  cases hc'.current.symm.trans hd
  refine ⟨c', hc', hgrown.isSealed.trans h.isOpen, hg.counted hc hd h.counted,
    hg.bound hc hd h.bound, hg.blocks_lt hc hd h.blocks, fun id hid => ?_⟩
  exact Nat.lt_of_lt_of_le (h.insertion id (hgrown.block.symm.trans hid)) hgrown.blocks

theorem later (h : Building env s c) (hf : Follows env s s') :
    ∃ c', Building env s' c' := by
  induction hf generalizing c with
  | refl => exact ⟨c, h⟩
  | grow hg => exact h.grow hg
  | edit current size names =>
    cases h.settled.current.symm.trans current
    exact ⟨_, h.settled.edit size names, h.isOpen, ⟨h.counted.vregs, h.counted.slots⟩,
      fun v id hv => (h.bound v id hv).mono ⟨rfl, rfl, rfl, rfl, rfl, List.prefix_refl _,
        fun _ _ hb => hb⟩,
      fun b id hb => size ▸ h.blocks b id hb, fun id hid => size ▸ h.insertion id hid⟩
  | trans _ _ ih ih' =>
    obtain ⟨d, hd⟩ := ih h
    exact ih' hd

theorem path (h : Building env s c) (hp : Path env s s' code) :
    ∃ c', Building env s' c' := h.later (.of_path hp)

/-- A global that is bound is bound to its symbol. -/
theorem symbol (h : Building env s c) (hm : env.module.Linked)
    (hv : env.module.value v = .ok ⟨ty, .global gid⟩) (hg : env.module.global gid = .ok g)
    (hsmall : c.machine.operands.size ≤ 2 ^ 32) (hfind : s.values.find? v = some id) :
    s.Holds id ⟨.symbol g.name, .ptr⟩ := by
  have hc := h.settled.current
  cases h.bound v id hfind with
  | result k i inst value object =>
    subst value
    cases hv.symm.trans (value_of_inst hm inst)
  | leaf leaf =>
    cases leaf with
    | argument _ _ value | constant _ _ _ _ value | function _ _ _ _ value
    | block _ _ _ value =>
      cases hv.symm.trans value
    | global _ _ data value global names =>
      cases hv.symm.trans value
      cases hg.symm.trans global
      have hget := names.get? (within_arena hc hsmall c hc)
      exact ⟨c, hc, operand_eq_ok.mp (operand_of_arena hget)⟩

end Building

/-- A function that receives code, whatever the calling convention. -/
structure Receiving (env : Env) (s : State) (c : Current) : Prop where
  building : Building env s c
  receives : ∃ b, c.block = some b

theorem Building.receiving {b : Machine.BlockId} (h : Building env s c)
    (hb : c.block = some b) :
    Receiving env s c :=
  ⟨h, b, hb⟩

/-- The states of functions that receive code. -/
def Receiving.stage (env : Env) (ample : env.allocator.Ample) : Stage where
  env
  ample
  Ready := Receiving env
  accepting := fun h => by
    obtain ⟨h, b, hb⟩ := h
    exact ⟨h.settled.current, h.isOpen, h.counted, b, hb, h.insertion b hb⟩
  later := fun h hf => by
    obtain ⟨h, b, hb⟩ := h
    obtain ⟨c', hc'⟩ := h.later hf
    obtain ⟨d, hd, hg⟩ := hf.grown h.settled.current
    cases hc'.settled.current.symm.trans hd
    exact ⟨c', hc', b, hg.block.trans hb⟩

/--
With room for `n` more operands a step of selection succeeds, and its code is as `Q` says.
-/
def Yields (env : Env) (n : Nat) (s : State) (x : LowerM α)
    (Q : α → State → List Code → Prop) :
    Prop :=
  ∀ c, Receiving env s c → s.size + n < 2 ^ 32 →
    ∃ a s' code, Runs x env s a s' ∧ Path env s s' code ∧ s'.size ≤ s.size + n ∧
    Q a s' code

/-! ## Indices that select a part -/

/-- A value that is a constant, used to select a position. -/
def Selects (m : IR.Module) (index : ValueId) (position : Nat) : Prop :=
  ∃ k, m.constantInt index = .ok (some k) ∧ k.toInt = position

theorem toInt_toInt64 {x : UInt64} (h : x.toNat ≤ Image.maxSize) :
    x.toInt64.toInt = x.toNat := by
  have hmax : Image.maxSize = 2 ^ 63 - 1 := rfl
  refine BitVec.toInt_eq_toNat_of_lt ?_
  show 2 * x.toNat < 2 ^ 64
  omega

theorem toBitVec_of_toInt (hk : k.toInt = position) :
    k.toBitVec = BitVec.ofNat 64 position := by
  rw [← BitVec.ofInt_natCast, ← hk]
  exact BitVec.ofInt_toInt.symm

theorem ofNat_toNat (x : UInt64) : x.toBitVec = BitVec.ofNat 64 x.toNat := by
  rw [← UInt64.toNat_toBitVec, BitVec.ofNat_toNat, BitVec.setWidth_eq]

/-- The offset of an element within an image. -/
theorem exists_offset (hk : k.toInt = position)
    (hsmall : stride.toNat * position ≤ Image.maxSize) :
    ∃ offset : Int64, k.toInt * stride.toInt64.toInt = offset.toInt ∧
      offset.toInt = (stride.toNat * position : Nat) := by
  have hmax : Image.maxSize = 2 ^ 63 - 1 := rfl
  have hproduct : k.toInt * stride.toInt64.toInt = (stride.toNat * position : Nat) := by
    rw [hk]
    rcases Nat.eq_zero_or_pos position with rfl | hpos
    · simp
    · have hle := Nat.le_mul_of_pos_right stride.toNat hpos
      rw [toInt_toInt64 (by omega), Int.natCast_mul, Int.mul_comm]
  have hoffset : (Int64.ofInt (stride.toNat * position : Nat)).toInt =
      (stride.toNat * position : Nat) :=
    Int64.toInt_ofInt_of_le (by omega) (by omega)
  exact ⟨_, hproduct.trans hoffset.symm, hoffset⟩

/-- A displacement that lies within an image, `size` bytes into it. -/
def Inside (disp : Int32) (size : Nat) : Prop := 0 ≤ disp.toInt ∧ disp.toInt ≤ size

/-- An offset within an image can be added to a displacement within it. -/
theorem Inside.add {disp : Int32} {offset : Int64} {size amount : Nat}
    (h : Inside disp size) (hoffset : offset.toInt = amount)
    (hsmall : size + amount ≤ Image.maxSize) :
    ∃ total, Word.addI64 disp.toInt64 offset = .ok total ∧
      ∀ disp', FoldedTo total offset disp' → Inside disp' (size + amount) := by
  obtain ⟨hlow, hhigh⟩ := h
  have hmax : Image.maxSize = 2 ^ 63 - 1 := rfl
  have hfits : Word.FitsI64 (disp.toInt64.toInt + offset.toInt) := by
    rw [Int32.toInt_toInt64, hoffset]
    constructor <;> omega
  obtain ⟨total, htotal⟩ : ∃ total, Word.addI64 disp.toInt64 offset = .ok total := by
    rw [Word.addI64, Word.toI64?, if_pos hfits]
    exact ⟨_, rfl⟩
  have hsum := addI64_eq_ok htotal
  rw [Int32.toInt_toInt64, hoffset] at hsum
  refine ⟨total, htotal, ?_⟩
  rintro disp' (hfolded | hfolded | rfl)
  · have := toInt_of_toI32? hfolded
    exact ⟨by omega, by omega⟩
  · have := toInt_of_toI32? hfolded
    exact ⟨by omega, by omega⟩
  · exact ⟨Int.le_refl 0, Int.natCast_nonneg _⟩

variable {path : List Nat} {offset start : Nat}

/-- The indices of a part can be walked: no sum of their offsets exceeds the image. -/
theorem walk_total_of_offsetAt {S : Stage} {address : Partial} {gep : ValueId}
    (hindices : List.Forall₂ (Selects S.env.module) indices path)
    (hoffset : ty.offsetAt path = some offset) (hsmall : start + offset ≤ Image.maxSize)
    (hbased : Based address s) (hinside : Inside address.disp start) :
    Total S (6 * indices.length) s (walk gep indices address ty) Based := by
  induction hindices generalizing ty offset start s address with
  | nil => exact .pure hbased
  | @cons index position indices path hindex _ ih =>
    obtain ⟨k, hk, hposition⟩ := hindex
    rw [List.length_cons, Nat.mul_succ, Nat.add_comm]
    rcases Ty.offsetAt_cons hoffset with
      ⟨name, fields, packed, layout, first, field, rest, rfl, hlayout, hfirst, hfield,
        hrest, rfl⟩ |
      ⟨element, length, stride, rest, rfl, hstride, hrest, rfl⟩
    · have hnat : k.toInt.toNat = position := by omega
      have hdistance : (layout.offsets.getD k.toInt.toNat 0).toInt64.toInt =
          first.toNat := by
        rw [hnat, List.getD_eq_getElem?_getD, hfirst, Option.getD_some,
          toInt_toInt64 (by omega)]
      obtain ⟨total, htotal, hfolded⟩ := hinside.add hdistance (by omega)
      refine (stepMember_total hbased hk (by omega) (hnat ▸ hfield) hlayout htotal).bind
        fun r t _ hr => ?_
      obtain ⟨address', next⟩ := r
      obtain ⟨⟨hbased', hdisp⟩, rfl⟩ := hr
      exact ih hrest (by omega) hbased' (hfolded _ hdisp)
    · obtain ⟨distance, hproduct, hdistance⟩ :=
        exists_offset hposition (show stride.toNat * position ≤ _ by omega)
      obtain ⟨total, htotal, hfolded⟩ := hinside.add hdistance (by omega)
      refine (stepConstant_total (.inr ⟨length, rfl⟩) hbased hstride hk hproduct
        htotal).bind fun r t _ hr => ?_
      obtain ⟨address', next⟩ := r
      obtain ⟨⟨hbased', hdisp⟩, rfl⟩ := hr
      exact ih hrest (by omega) hbased' (hfolded _ hdisp)

/-- The indices of a part lead to its offset. -/
theorem distance_of_offsetAt {word : ValueId → Option (BitVec 64)}
    (hindices : List.Forall₂ (Selects env.module) indices path)
    (hoffset : ty.offsetAt path = some offset)
    (hword : ∀ v k, env.module.constantInt v = .ok (some k) → word v = some k.toBitVec) :
    ty.distance? word indices = some (BitVec.ofNat 64 offset) := by
  -- One position of the path after the other; the offsets add up.
  induction hindices generalizing ty offset with
  | nil =>
    rw [Ty.offsetAt] at hoffset
    cases hoffset
    exact Ty.distance?_nil word ty
  | @cons index position indices path hindex _ ih =>
    obtain ⟨k, hk, hposition⟩ := hindex
    have hindex := hword _ k hk
    rcases Ty.offsetAt_cons hoffset with
      ⟨name, fields, packed, layout, first, field, rest, rfl, hlayout, hfirst, hfield,
        hrest, rfl⟩ |
      ⟨element, length, stride, rest, rfl, hstride, hrest, rfl⟩
    · have hlt := Int64.toInt_lt k
      have hnat : k.toBitVec.toNat = position := by
        rw [toBitVec_of_toInt hposition, BitVec.toNat_ofNat]
        omega
      rw [Ty.distance?_member hindex hlayout (hnat ▸ hfirst) (hnat ▸ hfield) (ih hrest),
        ofNat_toNat, ← BitVec.ofNat_add]
    · rw [Ty.distance?_element (.array element length) hindex hstride (ih hrest),
        toBitVec_of_toInt hposition, ofNat_toNat, ← BitVec.ofNat_mul, ← BitVec.ofNat_add,
        Nat.mul_comm]

/-! ## The address of a part, and a load from it -/

variable {E : Ty} {e : ValueId} {i last : Image}

theorem small_of_size (hc : s.current = some c) (hroom : s.size < 2 ^ 32) :
    c.machine.operands.size ≤ 2 ^ 32 := by
  have := State.size_eq hc
  omega

/-- The address of a global in the next register. -/
theorem addressRegister_global_total (hmemory : env.allocator.Ample)
    (hm : env.module.Linked) (hv : env.module.value gv = .ok ⟨ty, .global gid⟩)
    (hg : env.module.global gid = .ok g) :
    Total (Receiving.stage env hmemory) 2 s (addressRegister gv) (HasReg 64) := by
  have hresolve : Total (Receiving.stage env hmemory) 1 s (resolve gv) fun id t =>
    ∃ o, t.Holds id o ∧
      o = ⟨.symbol g.name, .ptr⟩ := by
    refine resolve_total_of (fun _ => .sourceModule (.check hv (.check hg ?_)))
      fun t c id _ hc hroom hid => ?_
    · exact (symbol_total g.name).mono (Nat.le_refl _) fun _ _ _ _ => trivial
    · have hb := hc.building
      exact ⟨_, hb.symbol hm hv hg (small_of_size hb.settled.current hroom) hid, rfl⟩
  have hvalue : Total (Receiving.stage env hmemory) 2 s (valueOperand gv)
      (HasReg 64) := by
    refine hresolve.get fun id o t _ ho heq => ?_
    subst heq
    exact .operand ho (.fill ho fun _ => rfl)
  refine Total.bind (n := 2) (m := 0) hvalue fun id t _ hid => ?_
  obtain ⟨o, ho, hreg⟩ := hid
  exact .operand ho (.ite (fun _ => .pure ⟨o, ho, hreg⟩) fun h => absurd hreg.form h)

/-- The code between two states is one. -/
theorem Path.code_unique {code' : List Code} (h : Path env s t code)
    (h' : Path env s t code') (hc : t.current = some c) : code = code' := by
  obtain ⟨insts, hgains, hdecodes⟩ := h.gains hc
  obtain ⟨insts', hgains', hdecodes'⟩ := h'.gains hc
  cases hgains.unique hgains'
  rw [← Machine.Function.decode_eq_some] at hdecodes hdecodes'
  exact Option.some.inj (hdecodes.symm.trans hdecodes')

/--
The address of a part of a global is as far from the symbol as the writer of data has put
it.
-/
theorem lowerGep_yields {alloc : Machine.Allocator} {zero : ValueId} {size : UInt64}
    (hmemory : env.allocator.Ample) (hm : env.module.Linked)
    (hops : inst.operands = gv :: zero :: indices)
    (hv : env.module.value gv = .ok ⟨.ptr ty, .global gid⟩)
    (hg : env.module.global gid = .ok g) (hzero : Selects env.module zero 0)
    (hindices : List.Forall₂ (Selects env.module) indices path)
    (hsize : ty.size = .ok size) (hi : i.Held)
    (hw : Writing env.module abi ty v i path E e last) :
    Yields env (10 + 6 * indices.length) s (lowerGep inst) fun id t code =>
      ∃ d, t.Holds id ⟨.virt d, .ptr⟩ ∧ Reaches code fun h _ τ =>
        τ.virt d = h.symbol g.name + BitVec.ofNat 64 (last.data.size - i.data.size) := by
  intro c hc hroom
  have hty : env.module.valueTy gv = .ok (.ptr ty) := valueTy_eq_ok.mpr ⟨_, hv⟩
  obtain ⟨k, hk, hkzero⟩ := hzero
  obtain ⟨offset, hoffset, hlast⟩ := hw.offset hi
  have hle := (hw.grows hi).held.le
  have htotal : Total (Receiving.stage env hmemory) (10 + 6 * indices.length) s
      (lowerGep inst) (HasReg 64) := by
    refine Total.weaken (n := 2 + (6 * (zero :: indices).length + 2)) ?_
      (by rw [List.length_cons]; omega)
    refine lowerGep_total_of (S := Receiving.stage env hmemory) hops hty
      (addressRegister_global_total hmemory hm hv hg) fun t register _ hreg => ?_
    -- The walk stays at the global first, and then goes to the part.
    have hproduct : k.toInt * size.toInt64.toInt = (0 : Int64).toInt :=
      by rw [hkzero]; simp
    have hstart : Inside 0 0 := ⟨Int.le_refl 0, Int.le_refl 0⟩
    obtain ⟨total, htotal, hfolded⟩ := @Inside.add 0 0 0 0 hstart rfl (Nat.zero_le _)
    rw [List.length_cons, Nat.mul_succ, Nat.add_comm]
    have hbased : Based ⟨register, 0⟩ t := hreg
    refine (stepConstant_total (.inl rfl) hbased hsize hk hproduct htotal).bind
      fun r u _ hr => ?_
    obtain ⟨address, next⟩ := r
    obtain ⟨⟨hbased, hdisp⟩, rfl⟩ := hr
    exact walk_total_of_offsetAt hindices hoffset (by omega) hbased (hfolded _ hdisp)
  obtain ⟨id, t, hrun, hfollows, hsize', -⟩ := htotal c hc hroom
  obtain ⟨d, hd, -⟩ := Stage.later _ hc hfollows
  have hcurrent := hd.settled.current
  have hsmall := small_of_size hcurrent (by omega)
  obtain ⟨root, code, hpath, hroot, hcode⟩ := lowerGep_code hops hty hrun
  obtain ⟨⟨code', hpath', hcalm⟩, r, -, -, hresult⟩ := lowerGep_quietly hrun
  cases hpath.code_unique hpath' hcurrent
  have hA := within_arena hcurrent hsmall
  obtain ⟨o, x, ho, hx, hmeaning⟩ := hcode _ hA
  cases hx.symm.trans (hresult _ hA)
  cases (holds_of_arena hcurrent ho).unique (hd.symbol hm hv hg hsmall hroot)
  refine ⟨id, t, code, hrun, hpath, hsize', r, holds_of_arena hcurrent hx, fun h σ => ?_⟩
  have hread : AllReadable env.module (zero :: indices) (t.placeIn (d.arena hsmall))
      ⟨h, σ, s.vregs⟩ := by
    intro v hmem hvariable
    have hselected : ∃ k, env.module.constantInt v = .ok (some k) := by
      rcases List.mem_cons.mp hmem with rfl | hmem
      · exact ⟨k, hk⟩
      · obtain ⟨j, hj, rfl⟩ := List.mem_iff_getElem.mp hmem
        obtain ⟨k, hk, -⟩ := hindices.get hj (hindices.length_eq ▸ hj)
        exact ⟨k, hk⟩
    obtain ⟨k, hk⟩ := hselected
    cases hk.symm.trans hvariable
  obtain ⟨τ, distance, hτ, hdistance, hvalue⟩ :=
    hmeaning ⟨h, σ, s.vregs⟩ rfl ⟨trivial, rfl, fun _ => rfl⟩ hread
  refine ⟨τ, hτ, Machine.memory_of_run (hcalm _ hA) hτ, ?_⟩
  rw [Ty.distance?_element (.ptr ty) (indexWord?_of_constantInt hk) hsize
    (distance_of_offsetAt hindices hoffset fun v k hk => indexWord?_of_constantInt hk),
    toBitVec_of_toInt hkzero] at hdistance
  cases hdistance
  rw [show τ.virt r = h.value τ ⟨.virt r, .ptr⟩ from rfl, hvalue, hlast,
    Nat.add_sub_cancel_left]
  simp [Machine.Host.value, Operand.needsAddress, Machine.Host.addressOf]

/-- A load through a pointer in a register. -/
theorem lowerLoad_yields {p : ValueId} {r : VReg} (hmemory : env.allocator.Ample)
    (hops : inst.operands = [p]) (hst : byValueStorage inst.ty "load" = .ok st)
    (hp : s.values.find? p = some id) (hid : s.Holds id ⟨.virt r, .ptr⟩) :
    Yields env 2 s (lowerLoad inst) fun x t code => ∃ d, t.Holds x ⟨.virt d, st⟩ ∧
      code = [⟨.mov, [⟨.virt d, st⟩, ⟨.mem (.ofBase (.virt r)), st⟩]⟩] := by
  intro c hc hroom
  obtain ⟨c₀, hc₀, ho₀⟩ := hid
  have hoperand : Runs (operand id) env s ⟨.virt r, .ptr⟩ s :=
    runs_operand.mpr ⟨c₀, hc₀, ho₀, rfl⟩
  have haddress : Runs (addressRegister p) env s id s :=
    runs_bind.mpr
      ⟨id, s, runs_bind.mpr ⟨id, s, runs_bind.mpr ⟨_, s, runs_lookupValue.mpr ⟨hp, rfl⟩,
        runs_pure.mpr ⟨rfl, rfl⟩⟩,
        runs_bind.mpr ⟨_, s, hoperand, runs_pure.mpr ⟨rfl, rfl⟩⟩⟩,
        runs_bind.mpr ⟨_, s, hoperand, runs_pure.mpr ⟨rfl, rfl⟩⟩⟩
  have htotal : Total (Receiving.stage env hmemory) (2 + 0) s (lowerLoad inst)
      (HasReg st.width) :=
    lowerLoad_total_of hst hops fun _ _ _ =>
      ⟨id, s, haddress, .refl s, Nat.le_refl _, hasReg_virt ⟨c₀, hc₀, ho₀⟩⟩
  obtain ⟨x, t, hrun, hfollows, hsize, -⟩ := htotal c hc hroom
  obtain ⟨d, hd, -⟩ := Stage.later _ hc hfollows
  have hcurrent := hd.settled.current
  have hrun' := hrun
  simp only [lowerLoad, memoryAt, runs_bind, runs_check, runs_pure] at hrun'
  obtain ⟨st', _, ⟨hst', rfl⟩, p', _, ⟨hp', rfl⟩, base, _, hbase, memory, s1,
    ⟨q, _, hq, hmem⟩, dst, s2, hdst, _, s3, hmov, rfl, rfl⟩ := hrun'
  cases hst.symm.trans hst'
  cases (unaryOperand_eq_ok.mpr hops).symm.trans hp'
  obtain ⟨rfl, rfl⟩ := haddress.unique hbase
  obtain ⟨rfl, hexists⟩ := exists_virt_of_regOf hq
  obtain ⟨o, ho, hreg⟩ := runs_regOf.mp hq
  obtain ⟨rfl, -⟩ := hoperand.unique ho
  cases hreg
  have a1 := mem_adds hmem fun c q' hc' hq' =>
    hexists c q' hc' (List.mem_singleton.mp hq').symm
  obtain ⟨d', code, -, -, hpath, hcode⟩ := fill_path hdst hmov
  have hA := within_arena hcurrent (small_of_size hcurrent (by omega))
  obtain ⟨_, ho, hget, rfl⟩ := hcode _ hA
  cases (a1.get _ (hpath.within hA)).symm.trans ho
  exact ⟨_, _, _, hrun, a1.path.after hpath, hsize, d', holds_of_arena hcurrent hget, rfl⟩

end InstSelect.Lowering
