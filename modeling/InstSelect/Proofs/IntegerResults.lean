import InstSelect.Proofs.IntegerCode
import InstSelect.Proofs.Meaning

/-!
# What integer code computes

Each form of integer code, run in any state, leaves in its result register the word that
two's-complement semantics asks for, at the width of the result. The forms are taken as
they are, so nothing here depends on how selection came to produce them; operands only
have to be steady, that is to lie in no memory and in no register that the code itself
uses.
-/

namespace InstSelect.Machine

open Lowering (conditionCode shiftOp wrapTo)

variable {w v k : Nat} {y : BitVec 64} {cond : Cond}

/-! ## Words -/

theorem setWidth_zeroExtended_le (hw : w ≤ 64) (x : BitVec 64) :
    (zeroExtended v x).setWidth w = (x.setWidth v).setWidth w := by
  ext i hi
  have hlt : i < 64 := by omega
  simp [zeroExtended, hlt]

theorem setWidth_signExtended (hw : w ≤ 64) (x : BitVec 64) :
    (signExtended v x).setWidth w = (x.setWidth v).signExtend w := by
  ext i hi
  have hlt : i < 64 := by omega
  simp [signExtended, BitVec.getElem_signExtend, hlt]

theorem setWidth_shiftLeft (hw : w ≤ 64) (x : BitVec 64) (n : Nat) :
    (x <<< n).setWidth w = x.setWidth w <<< n := by
  ext i hi
  have hlt : i < 64 := by omega
  simp [hlt, BitVec.getLsbD_eq_getElem (show i - n < 64 by omega)]

theorem setWidth_zeroExtended_ushiftRight (hw : w ≤ 64) (x : BitVec 64) (n : Nat) :
    (zeroExtended w x >>> n).setWidth w = x.setWidth w >>> n := by
  ext i hi
  have hlt : i < 64 := by omega
  simp [zeroExtended]
  omega

theorem setWidth_signExtended_sshiftRight (hw : w ≤ 64) (x : BitVec 64) (n : Nat) :
    ((signExtended w x).sshiftRight n).setWidth w = (x.setWidth w).sshiftRight n := by
  ext i hi
  have hlt : i < 64 := by omega
  -- Extending keeps the sign bit, which both shifts bring in from above.
  have hmsb : (BitVec.signExtend 64 (x.setWidth w)).msb = (x.setWidth w).msb := by
    rw [BitVec.msb_signExtend]
    by_cases h64 : w = 64
    · subst h64
      simp [BitVec.msb]
    · simp [show ¬ 64 ≤ w by omega]
  simp only [signExtended, BitVec.getElem_sshiftRight, BitVec.getElem_setWidth,
    BitVec.getLsbD_sshiftRight, hmsb]
  by_cases hni : n + i < 64
  · simp [hni, BitVec.getElem_signExtend, hlt]
  · simp [hni, show ¬ n + i < w by omega, hlt]

/-- Reducing a constant to a class keeps its low bits. -/
theorem setWidth_wrapTo (k : Int64) (st : Storage) :
    (wrapTo k st).toBitVec.setWidth st.width = k.toBitVec.setWidth st.width := by
  have hround : ∀ v ≤ 64, ∀ x : BitVec 64,
      ((x.signExtend v).signExtend 64).setWidth v = x.setWidth v := by
    intro v hv x
    ext i hi
    have hlt : i < 64 := by omega
    simp [BitVec.getElem_signExtend, hlt, hi]
  cases st <;> simp [wrapTo, Storage.width, Storage.bits, Storage.size, hround]

/-- Words that agree at a width agree at smaller ones. -/
theorem setWidth_eq_of_le {x : BitVec 64} (h : x.setWidth v = y.setWidth v)
    (hwv : w ≤ v) : x.setWidth w = y.setWidth w := by
  have := congrArg (BitVec.setWidth w) h
  rwa [BitVec.setWidth_setWidth_of_le x hwv, BitVec.setWidth_setWidth_of_le y hwv] at this

/-! ## Conditions -/

/-- The flags of a difference tell which operand is smaller, also where it overflows. -/
theorem msb_sub_bne_ssubOverflow (x y : BitVec w) :
    ((x - y).msb != BitVec.ssubOverflow x y) = x.slt y := by
  have hx := BitVec.two_mul_toInt_lt (x := x)
  have hx' := BitVec.le_two_mul_toInt (x := x)
  have hy := BitVec.two_mul_toInt_lt (x := y)
  have hy' := BitVec.le_two_mul_toInt (x := y)
  rw [BitVec.msb_eq_toInt, BitVec.toInt_sub, BitVec.slt_eq_decide, BitVec.ssubOverflow]
  cases w with
  | zero => simp [BitVec.eq_nil x, BitVec.eq_nil y]
  | succ w =>
    simp only [Nat.add_sub_cancel, ge_iff_le]
    have hpow : ((2 ^ (w + 1) : Nat) : Int) = 2 * 2 ^ w := by
      rw [Nat.pow_succ, Nat.mul_comm]
      rfl
    rw [Int.pow_succ] at hx hx' hy hy'
    -- Only the size of the two numbers matters from here on.
    generalize (2 : Int) ^ w = p at *
    generalize x.toInt = a at *
    generalize y.toInt = b at *
    have hmod : a - b < -p ∧ (a - b).bmod (2 ^ (w + 1)) = a - b + 2 * p ∨
        -p ≤ a - b ∧ a - b < p ∧ (a - b).bmod (2 ^ (w + 1)) = a - b ∨
        p ≤ a - b ∧ (a - b).bmod (2 ^ (w + 1)) = a - b - 2 * p := by
      rcases Int.lt_or_le (a - b) (-p) with hlow | hlow
      · rw [← Int.add_bmod_right, hpow]
        exact .inl ⟨hlow, Int.bmod_eq_of_le_mul_two (by omega) (by omega)⟩
      · rcases Int.lt_or_le (a - b) p with hhigh | hhigh
        · exact .inr (.inl ⟨hlow, hhigh, Int.bmod_eq_of_le_mul_two (by omega) (by omega)⟩)
        · rw [← Int.sub_bmod_right, hpow]
          exact .inr (.inr ⟨hhigh, Int.bmod_eq_of_le_mul_two (by omega) (by omega)⟩)
    rcases hmod with ⟨h1, h2⟩ | ⟨h1, h2, h3⟩ | ⟨h1, h2⟩
    · rw [h2]
      simp [h1, show ¬ a - b + 2 * p < 0 by omega, show a < b by omega]
    · rw [h3]
      simp [show ¬ p ≤ a - b by omega, show ¬ a - b < -p by omega,
        show a - b < 0 ↔ a < b by omega]
    · rw [h2]
      simp [h1, show a - b - 2 * p < 0 by omega, show ¬ a < b by omega]

/-- The relation between the operands of `cmp` that a condition tests. -/
def Cond.relates (c : Cond) (x y : BitVec w) : Bool :=
  match c with
  | .e => x == y
  | .ne => x != y
  | .l => x.slt y
  | .le => x.sle y
  | .g => y.slt x
  | .ge => y.sle x
  | .b => x.ult y
  | .be => x.ule y
  | .a => y.ult x
  | .ae => y.ule x

theorem beq_or_slt (x y : BitVec w) : (x == y || x.slt y) = x.sle y := by
  rw [Bool.eq_iff_iff]
  simp only [Bool.or_eq_true, beq_iff_eq, BitVec.slt_eq_decide, BitVec.sle_eq_decide,
    decide_eq_true_eq, ← BitVec.toInt_inj]
  omega

theorem ult_or_beq (x y : BitVec w) : (x.ult y || x == y) = x.ule y := by
  rw [Bool.eq_iff_iff]
  simp only [Bool.or_eq_true, beq_iff_eq, BitVec.ult_eq_decide, BitVec.ule_eq_decide,
    decide_eq_true_eq, ← BitVec.toNat_inj]
  omega

/-- The flags of `cmp` tell how its operands relate. -/
theorem holds_ofCompare (c : Cond) (x y : BitVec 64) :
    c.holds (.ofCompare w x y) = c.relates (x.setWidth w) (y.setWidth w) := by
  have hslt := msb_sub_bne_ssubOverflow (x.setWidth w) (y.setWidth w)
  have hle := beq_or_slt (x.setWidth w) (y.setWidth w)
  have hbe := ult_or_beq (x.setWidth w) (y.setWidth w)
  cases c with
  | e | ne | b => rfl
  | l => exact hslt
  | le => simpa only [Cond.holds, Status.ofCompare, Cond.relates, hslt] using hle
  | g =>
    simp only [Cond.holds, Status.ofCompare, Cond.relates, hslt, hle]
    rw [BitVec.sle_eq_not_slt, Bool.not_not]
  | ge =>
    simp only [Cond.holds, Status.ofCompare, Cond.relates, hslt]
    rw [BitVec.sle_eq_not_slt]
  | be => exact hbe
  | a =>
    simp only [Cond.holds, Status.ofCompare, Cond.relates, hbe]
    rw [BitVec.ule_eq_not_ult, Bool.not_not]
  | ae =>
    simp only [Cond.holds, Status.ofCompare, Cond.relates]
    rw [BitVec.ule_eq_not_ult]

/-- With operands exchanged, the exchanged condition tests the same. -/
theorem relates_swap (c : Cond) (x y : BitVec w) :
    c.swap.relates y x = c.relates x y := by
  cases c with
  | e => exact Bool.beq_comm
  | ne => exact bne_comm
  | _ => rfl

theorem relates_conditionCode (p : IR.Predicate) (signed : Bool) (x y : BitVec w) :
    (conditionCode p signed).relates x y = p.holds signed x y := by
  cases signed <;> cases p <;> rfl

/-! ## Single instructions -/

variable {h : Host} {σ : Cpu} {n m : Nat} {op : Op} {st : Storage} {code : List Code}
  {l r d o o' x : Operand}

/-- An operation of two operands leaves what it computes in its destination register. -/
theorem compute_to_virt {d : VReg} {z : BitVec 64}
    (hz : op.compute st.width o.width (σ.virt d) (h.read σ o) = some z) :
    ∃ τ, h.step σ ⟨op, [⟨.virt d, st⟩, o]⟩ = some (.falls τ) ∧
      (τ.virt d).setWidth st.width = z.setWidth st.width := by
  have hread : h.read σ ⟨.virt d, st⟩ = σ.virt d := rfl
  have hwidth : (⟨.virt d, st⟩ : Operand).width = st.width := rfl
  have hwrite := read_write_virt (h := h) (σ := σ) d st z
  cases op with
  | lea | cmp | test => cases hz
  | _ =>
    simp only [Host.step, Host.binary, hread, hwidth, hz, Option.map_some]
    exact ⟨_, rfl, hwrite⟩

/-- Whether a condition holds, as a byte in a register. -/
theorem setcc_to_virt (cond : Cond) (d : VReg) (h : Host) (σ : Cpu) :
    ∃ τ, h.step σ ⟨.setcc cond, [⟨.virt d, .i8⟩]⟩ = some (.falls τ) ∧
      (τ.virt d).setWidth 8 = if cond.holds σ.status then 1 else 0 := by
  refine ⟨h.write σ ⟨.virt d, .i8⟩ (if cond.holds σ.status then 1 else 0), rfl, ?_⟩
  refine (read_write_virt (h := h) (σ := σ) d .i8 _).trans ?_
  split <;> rfl

/-- The value of an operand that is no address is what it holds. -/
theorem value_of_direct (ho : o.needsAddress = false) : h.value σ o = h.read σ o := by
  rw [Host.value, ho]
  rfl

/--
An operand whose value, of width `w`, is available before code that uses registers from
`n` on.
-/
structure Operand.Source (n w : Nat) (o : Operand) : Prop where
  steady : o.Steady n
  width : o.width = w
  address : o.needsAddress = true → w = 64

theorem Operand.Source.mono (ho : o.Source n w) (hle : n ≤ m) : o.Source m w :=
  ⟨ho.steady.mono hle, ho.width, ho.address⟩

namespace Fetch

theorem direct (hf : Fetch n o o' code m) (ho : o.needsAddress = false) :
    o'.needsAddress = false := by
  cases hf with
  | keep => exact ho
  | copy r hr => rfl

theorem source (hf : Fetch n o o' code m) (ho : o.Source n w) : o'.Source m w := by
  refine ⟨hf.steady ho.steady, ?_, ?_⟩
  · rw [hf.width fun haddr => ho.width.trans (ho.address haddr), ho.width]
  · cases hf with
    | keep => exact ho.address
    | copy r hr => exact fun haddr => by cases haddr

/--
After fetching a source its value is in the new operand, and older ones still have theirs.
-/
theorem run_source (hf : Fetch n o o' code m) (ho : o.Source n w) (h : Host) (σ : Cpu) :
    ∃ τ, h.run code σ = some (.falls τ) ∧ Keeps n σ τ ∧
      (h.value τ o').setWidth w = (h.value σ o).setWidth w := by
  obtain ⟨τ, hrun, hk, -, -, hv⟩ := hf.run h σ
  rw [(hf.source ho).width] at hv
  exact ⟨τ, hrun, hk, hv⟩

end Fetch

/-- A copy into a virtual register. -/
theorem copy_to_virt (d : VReg) (st : Storage) (o : Operand) (h : Host) (σ : Cpu) :
    ∃ τ, h.step σ ⟨o.copyOp, [⟨.virt d, st⟩, o]⟩ = some (.falls τ) ∧
      Keeps d.index.toNat σ τ ∧
      (τ.virt d).setWidth st.width = (h.value σ o).setWidth st.width := by
  have hstep := step_copy (h := h) (σ := σ) ⟨.virt d, st⟩ o
  exact ⟨_, hstep,
    Keeps.of_step (quiet_of_virt o.clobbersNothing_copyOp (Nat.le_refl _)) hstep,
    read_write_virt d st _⟩

/-! ## Forms of code -/

/-- What an operation computes at every width. -/
def Op.Computes (op : Op) (f : ∀ w, BitVec w → BitVec w → BitVec w) : Prop :=
  ∀ (w v : Nat) (x y : BitVec 64), w ≤ 64 → ∃ z, op.compute w v x y = some z ∧
    z.setWidth w = f w (x.setWidth w) (y.setWidth w)

theorem BinaryCode.computes {f : ∀ w, BitVec w → BitVec w → BitVec w}
    (hcode : BinaryCode op st n l r d code m) (hop : op.Computes f) (hl : l.Steady n)
    (hr : r.Source n st.width) (h : Host) (σ : Cpu) :
    ∃ τ, h.run code σ = some (.falls τ) ∧ (h.value τ d).setWidth st.width =
      f st.width ((h.value σ l).setWidth st.width) ((h.value σ r).setWidth st.width) := by
  obtain @⟨r', r'', c1, c2, d, m, right, direct, source⟩ := hcode
  have hr' := right.source hr
  obtain ⟨σ1, run1, keeps1, value1⟩ := right.run_source hr h σ
  obtain ⟨σ2, step2, keeps2, value2⟩ := copy_to_virt d st l h σ1
  obtain ⟨σ3, run3, keeps3, value3⟩ := source.run_source (hr'.mono (Nat.le_succ _)) h σ2
  rw [keeps1.value hl] at value2
  rw [keeps2.value hr'.steady, value1, value_of_direct (source.direct direct)] at value3
  obtain ⟨z, hz, hvalue⟩ := hop st.width r''.width (σ3.virt d) (h.read σ3 r'') st.width_le
  obtain ⟨τ, step4, value4⟩ := compute_to_virt hz
  refine ⟨τ, ?_, ?_⟩
  · rw [Host.run_append_of_falls run1, Host.run_cons_of_falls step2,
      Host.run_append_of_falls run3, Host.run_singleton, step4]
  · rw [hvalue, keeps3.virt d (Nat.lt_succ_self _), value2, value3] at value4
    exact value4

theorem TruncCode.computes (hcode : TruncCode st n x d code m) (hx : x.Source n w)
    (h : Host) (σ : Cpu) :
    ∃ τ, h.run code σ = some (.falls τ) ∧
      (h.value τ d).setWidth st.width = (h.value σ x).setWidth st.width := by
  cases hcode with
  | @immediate x' k c d source constant narrows =>
    obtain ⟨σ1, run1, keeps1, value1⟩ := source.run_source hx h σ
    obtain ⟨τ, step2, -, value2⟩ := copy_to_virt d st ⟨.imm (wrapTo k st), st⟩ h σ1
    have hk : h.value σ1 x' = k.toBitVec := by
      simp only [Host.value, Operand.needsAddress, Host.read, constant]
      rfl
    refine ⟨τ, by rw [Host.run_append_of_falls run1, Host.run_singleton]; exact step2, ?_⟩
    rw [(source.source hx).width] at narrows
    rw [hk] at value1
    calc (τ.virt d).setWidth st.width
        = (wrapTo k st).toBitVec.setWidth st.width := value2
      _ = k.toBitVec.setWidth st.width := setWidth_wrapTo k st
      _ = (h.value σ x).setWidth st.width :=
        setWidth_eq_of_le value1 (Nat.le_of_lt narrows)
  | @register x' c d source direct narrows =>
    obtain ⟨σ1, run1, keeps1, value1⟩ := source.run_source hx h σ
    obtain ⟨τ, step2, -, value2⟩ := copy_to_virt d st x' h σ1
    rw [Operand.copyOp, direct] at step2
    refine ⟨τ, by rw [Host.run_append_of_falls run1, Host.run_singleton]; exact step2, ?_⟩
    rw [(source.source hx).width] at narrows
    exact value2.trans (setWidth_eq_of_le value1 (Nat.le_of_lt narrows))

/-- What an operation makes of a source of another width. -/
def Op.Converts (op : Op) (g : ∀ v w, BitVec v → BitVec w) : Prop :=
  ∀ (w v : Nat) (x y : BitVec 64), w ≤ 64 → ∃ z, op.compute w v x y = some z ∧
    z.setWidth w = g v w (y.setWidth v)

theorem ExtendCode.computes {g : ∀ v w, BitVec v → BitVec w}
    (hcode : ExtendCode op st n x d code m) (hop : op.Converts g) (hx : x.Source n v)
    (h : Host) (σ : Cpu) :
    ∃ τ, h.run code σ = some (.falls τ) ∧
      (h.value τ d).setWidth st.width = g v st.width ((h.value σ x).setWidth v) := by
  obtain @⟨x', x'', c1, c2, n1, d, source, direct, register, widens⟩ := hcode
  have hx' := source.source hx
  obtain ⟨σ1, run1, keeps1, value1⟩ := source.run_source hx h σ
  obtain ⟨σ2, run2, keeps2, value2⟩ := register.run_source hx' h σ1
  rw [value1, value_of_direct (register.direct direct)] at value2
  obtain ⟨z, hz, hvalue⟩ := hop st.width v (σ2.virt d) (h.read σ2 x'') st.width_le
  rw [← (register.source hx').width] at hz
  obtain ⟨τ, step3, value3⟩ := compute_to_virt hz
  refine ⟨τ, ?_, ?_⟩
  · rw [Host.run_append_of_falls run1, Host.run_append_of_falls run2,
      Host.run_singleton, step3]
  · rw [hvalue, value2] at value3
    exact value3

/-- Ordering the operands of a comparison does not change what is compared. -/
theorem Ordered.run {cond' : Cond} {y : Operand}
    (ho : Ordered cond n l r cond' x y code m) (hl : l.Source n w) (hr : r.Source n w)
    (dl : l.needsAddress = false) (dr : r.needsAddress = false) (h : Host) (σ : Cpu) :
    ∃ τ, h.run code σ = some (.falls τ) ∧ x.Source m w ∧ y.Source m w ∧
      x.needsAddress = false ∧ y.needsAddress = false ∧
      cond'.relates ((h.value τ x).setWidth w) ((h.value τ y).setWidth w) =
        cond.relates ((h.value σ l).setWidth w) ((h.value σ r).setWidth w) := by
  cases ho with
  | swapped => exact ⟨σ, rfl, hr, hl, dr, dl, relates_swap _ _ _⟩
  | kept left =>
    obtain ⟨τ, hrun, hk, hv⟩ := left.run_source hl h σ
    exact ⟨τ, hrun, left.source hl, hr.mono left.le, left.direct dl, dr,
      by rw [hv, hk.value hr.steady]⟩

theorem CompareCode.computes (hcode : CompareCode cond n l r d code m)
    (hl : l.Source n w) (hr : r.Source n w) (h : Host) (σ : Cpu) :
    ∃ τ, h.run code σ = some (.falls τ) ∧ (h.value τ d).setWidth 8 =
      if cond.relates ((h.value σ l).setWidth w) ((h.value σ r).setWidth w) then 1
      else 0 := by
  obtain @⟨l', r', x, y, y', y'', cond', c1, c2, c3, c4, c5, n1, n2, n3, n4, d, left, dl,
    right, dr, order, beside, source⟩ := hcode
  have hl' := left.source hl
  have hr1 := hr.mono left.le
  have hr' := right.source hr1
  obtain ⟨σ1, run1, keeps1, value1⟩ := left.run_source hl h σ
  obtain ⟨σ2, run2, keeps2, value2⟩ := right.run_source hr1 h σ1
  rw [keeps1.value hr.steady] at value2
  rw [← keeps2.value hl'.steady] at value1
  obtain ⟨σ3, run3, hx, hy, dx, dy, relates3⟩ :=
    order.run (hl'.mono right.le) hr' dl dr h σ2
  have hy' := beside.source hy
  obtain ⟨σ4, run4, keeps4, value4⟩ := beside.run_source hy h σ3
  obtain ⟨σ5, run5, keeps5, value5⟩ := source.run_source hy' h σ4
  -- What `cmp` reads is what was to be compared.
  let τ : Cpu := { σ5 with status := .ofCompare x.width (h.read σ5 x) (h.read σ5 y'') }
  have hholds : cond'.holds τ.status =
      cond.relates ((h.value σ l).setWidth w) ((h.value σ r).setWidth w) := by
    have hτ : τ.status = .ofCompare w (h.value σ5 x) (h.value σ5 y'') := by
      rw [value_of_direct dx, value_of_direct (source.direct (beside.direct dy)),
        ← hx.width]
    rw [hτ, holds_ofCompare, value5, value4, keeps5.value (hx.mono beside.le).steady,
      keeps4.value hx.steady, relates3, value1, value2]
  have hcmp : h.step σ5 ⟨.cmp, [x, y'']⟩ = some (.falls τ) := rfl
  obtain ⟨ρ, hset, hvalue⟩ := setcc_to_virt cond' d h τ
  refine ⟨ρ, ?_, ?_⟩
  · rw [Host.run_append_of_falls run1, Host.run_append_of_falls run2,
      Host.run_append_of_falls run3, Host.run_append_of_falls run4,
      Host.run_append_of_falls run5, Host.run_cons_of_falls hcmp,
      Host.run_singleton, hset]
  · rw [hholds] at hvalue
    exact hvalue

/-- What a shift computes, given its count. -/
def Op.Shifts (op : Op) (f : ∀ w, BitVec w → Nat → BitVec w) : Prop :=
  ∀ (w v : Nat) (x y : BitVec 64), w ≤ 64 → ∃ z, op.compute w v x y = some z ∧
    z.setWidth w = f w (x.setWidth w) (shiftCount w y)

/-- A count below the width of a class is taken as it is. -/
theorem shiftCount_of_lt (hy : (y.setWidth 8).toNat = k) (hk : k < st.width) :
    shiftCount st.width y = k := by
  rw [shiftCount, hy]
  have hle := st.width_le
  by_cases h64 : st.width = 64
  · rw [if_pos h64]
    omega
  · rw [if_neg h64]
    have : st.width ≤ 32 := by
      revert h64
      cases st <;> decide
    omega

/-- The low byte of a word that is small at some width. -/
theorem toNat_setWidth_eight (hv : 8 ≤ v) (hk : (y.setWidth v).toNat = k) (hlt : k < 64) :
    (y.setWidth 8).toNat = k := by
  have := congrArg BitVec.toNat (BitVec.setWidth_setWidth_of_le y hv)
  rw [BitVec.toNat_setWidth, hk] at this
  omega

theorem ShiftCode.computes {args : List Incoming} {f : ∀ w, BitVec w → Nat → BitVec w}
    {a : Operand} (hcode : ShiftCode args op st n l a d code m) (hop : op.Shifts f)
    (hplaced : Placed args) (ha : a.Source n v) (hv : 8 ≤ v) (h : Host) (σ : Cpu)
    (hk : ((h.value σ a).setWidth v).toNat = k) (hlt : k < st.width) :
    ∃ τ, h.run code σ = some (.falls τ) ∧
      (h.value τ d).setWidth st.width =
        f st.width ((h.value σ l).setWidth st.width) k := by
  have ha1 := ha.mono (Nat.le_succ n)
  have hk64 : k < 64 := Nat.lt_of_lt_of_le hlt st.width_le
  cases hcode with
  | @immediate a' j c d m dst amount count =>
    obtain ⟨σ1, step1, keeps1, value1⟩ := copy_to_virt d st l h σ
    rw [dst] at keeps1
    obtain ⟨σ2, run2, keeps2, value2⟩ := amount.run_source ha1 h σ1
    have hj : h.value σ2 a' = j.toBitVec := by
      simp only [Host.value, Operand.needsAddress, Host.read, count]
      rfl
    rw [hj, keeps1.value ha.steady] at value2
    rw [← value2] at hk
    have hcount := shiftCount_of_lt (toNat_setWidth_eight hv hk hk64) hlt
    obtain ⟨z, hz, hvalue⟩ := hop st.width 8 (σ2.virt d) j.toBitVec st.width_le
    obtain ⟨τ, step3, value3⟩ := compute_to_virt (h := h) (o := ⟨.imm j, .i8⟩) hz
    refine ⟨τ, ?_, ?_⟩
    · rw [Host.run_cons_of_falls step1, Host.run_append_of_falls run2,
        Host.run_singleton, step3]
    · rw [hvalue, hcount, keeps2.virt d (by omega), value1] at value3
      exact value3
  | @register a' c d m dst amount direct count =>
    obtain ⟨σ1, step1, keeps1, value1⟩ := copy_to_virt d st l h σ
    rw [dst] at keeps1
    obtain ⟨σ2, run2, keeps2, value2⟩ := amount.run_source ha1 h σ1
    rw [keeps1.value ha.steady] at value2
    have ha' := amount.source ha1
    -- Saving the argument in `rcx` touches memory only.
    have hmem : ∀ b ∈ Lowering.savedIn [.rcx] args, b ∈ args := fun b hb =>
      (List.mem_filter.mp hb).1
    have hidx : ∀ b ∈ Lowering.savedIn [.rcx] args, b.index < 4 := fun b hb =>
      hplaced.index_lt (hmem b hb)
    obtain ⟨memory, run3, -⟩ := Incoming.run_saves (h := h) (σ := σ2) hidx
      (hplaced.pairwise_index.filter _)
    have keeps3 : Keeps m σ2 { σ2 with memory } := ⟨rfl, fun _ _ => rfl⟩
    -- The count goes to `rcx`, whose low byte the shift reads.
    let σ4 : Cpu := h.write { σ2 with memory } ⟨.phys .rcx, a'.storage⟩
      (h.read { σ2 with memory } a')
    have step4 : h.step { σ2 with memory } ⟨.mov, [⟨.phys .rcx, a'.storage⟩, a']⟩ =
        some (.falls σ4) := rfl
    have hrcx : (σ4.phys .rcx).setWidth v = (h.value σ a).setWidth v := by
      rw [← value2, ← keeps3.value ha'.steady, value_of_direct direct]
      have hwidth : a'.storage.width = v := ha'.width
      subst hwidth
      exact setWidth_merge a'.storage.width_le _ _
    rw [← hrcx] at hk
    have hcount := shiftCount_of_lt (toNat_setWidth_eight hv hk hk64) hlt
    obtain ⟨z, hz, hvalue⟩ := hop st.width 8 (σ4.virt d) (σ4.phys .rcx) st.width_le
    obtain ⟨σ5, step5, value5⟩ := compute_to_virt (h := h) (o := ⟨.phys .rcx, .i8⟩) hz
    obtain ⟨phys, run6, -⟩ := Incoming.run_reloads (h := h) (σ := σ5) hidx
      (fun b hb heq => by
        have := (List.mem_filter.mp hb).2
        rw [heq] at this
        cases this)
      (hplaced.pairwise_reg.filter _)
    refine ⟨{ σ5 with phys }, ?_, ?_⟩
    · rw [Host.run_cons_of_falls step1, Host.run_append_of_falls run2, List.append_assoc,
        Host.run_append_of_falls run3, List.cons_append, Host.run_cons_of_falls step4,
        List.cons_append, Host.run_cons_of_falls step5, List.nil_append, run6]
    · have hd : σ4.virt d = σ1.virt d := keeps2.virt d (by omega)
      rw [hvalue, hcount, hd, value1] at value5
      exact value5

/-! ## Operations of instructions -/

/-- The operation of a plain binary instruction. -/
def binaryOp? : IR.Opcode → Option Op
  | .add => some .add
  | .sub => some .sub
  | .mul => some .imul
  | .and => some .and
  | .or => some .or
  | .xor => some .xor
  | _ => none

theorem computes_binaryOp {opcode : IR.Opcode} {f : ∀ w, BitVec w → BitVec w → BitVec w}
    (hop : binaryOp? opcode = some op) (hf : opcode.arithmetic? = some f) :
    op.Computes f := by
  intro w v x y hw
  cases opcode with
  | add =>
    cases hop
    cases hf
    exact ⟨_, rfl, BitVec.setWidth_add x y hw⟩
  | sub =>
    cases hop
    cases hf
    refine ⟨_, rfl, ?_⟩
    rw [BitVec.sub_eq_add_neg, BitVec.setWidth_add x _ hw, BitVec.setWidth_neg_of_le hw,
      ← BitVec.sub_eq_add_neg]
  | mul =>
    cases hop
    cases hf
    exact ⟨_, rfl, BitVec.setWidth_mul x y hw⟩
  | and =>
    cases hop
    cases hf
    exact ⟨_, rfl, BitVec.setWidth_and⟩
  | or =>
    cases hop
    cases hf
    exact ⟨_, rfl, BitVec.setWidth_or⟩
  | xor =>
    cases hop
    cases hf
    exact ⟨_, rfl, BitVec.setWidth_xor⟩
  | _ => cases hop

theorem shifts_shiftOp {right signed : Bool} {f : ∀ w, BitVec w → Nat → BitVec w}
    (hf : (if right then IR.Opcode.shr else .shl).shift? signed = some f) :
    (shiftOp right signed).Shifts f := by
  intro w v x y hw
  cases right with
  | false =>
    cases hf
    exact ⟨_, rfl, setWidth_shiftLeft hw x _⟩
  | true =>
    cases signed with
    | false =>
      cases hf
      exact ⟨_, rfl, setWidth_zeroExtended_ushiftRight hw x _⟩
    | true =>
      cases hf
      exact ⟨_, rfl, setWidth_signExtended_sshiftRight hw x _⟩

theorem converts_movzx : Op.movzx.Converts fun _ w x => x.setWidth w :=
  fun _ _ _ y hw => ⟨_, rfl, setWidth_zeroExtended_le hw y⟩

theorem converts_movsx : Op.movsx.Converts fun _ w x => x.signExtend w :=
  fun _ _ _ y hw => ⟨_, rfl, setWidth_signExtended hw y⟩

/-- A word of more bits for the same number, signed or unsigned. -/
def widened (signed : Bool) (w : Nat) (x : BitVec v) : BitVec w :=
  if signed then x.signExtend w else x.setWidth w

theorem widened_self (signed : Bool) (x : BitVec w) : widened signed w x = x := by
  cases signed with
  | true => exact BitVec.signExtend_eq x
  | false => exact BitVec.setWidth_eq x

theorem converts_wideningOp (signed : Bool) :
    (wideningOp signed).Converts fun _ w x => widened signed w x := by
  cases signed with
  | true => exact converts_movsx
  | false => exact converts_movzx

end InstSelect.Machine
