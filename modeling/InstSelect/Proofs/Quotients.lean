import InstSelect.Proofs.CallBinding

/-!
# Quotients and remainders

A division extends its dividend over the pair `rdx:rax`, divides by a register that
setting up the pair does not touch, and copies one half of the pair out. Bytes are widened
first, so that the two halves are whole registers. All classes of integers, signed and
unsigned, are treated alike: a word stands for a number, widening keeps the number, and
the machine divides numbers, rounding to zero. A quotient that fits the type fits the
wider class too, so the machine does not fault.

Arguments in the pair are saved before the division and reloaded after it. Saves touch
memory only, and reloads physical registers only, wherever the calling convention puts the
arguments.
-/

namespace InstSelect.Machine

open Lowering (workStorage widenImm lowMask signExtension)

variable {v w n m : Nat} {signed remainder : Bool} {q b x y : Int} {divisor : BitVec 64}
  {k : Int64} {σ : Cpu}

/-! ## Numbers -/

/-- The number that a word stands for. -/
def number (signed : Bool) (x : BitVec w) : Int := if signed then x.toInt else x.toNat

/-- A number of a signed or unsigned type of a width. -/
def Represents (signed : Bool) (w : Nat) (q : Int) : Prop :=
  ∃ x : BitVec w, number signed x = q

theorem ofInt_number (signed : Bool) (x : BitVec w) :
    BitVec.ofInt w (number signed x) = x := by
  cases signed with
  | true => exact BitVec.ofInt_toInt
  | false => simp [number]

theorem number_ofInt (h : Represents signed w q) :
    number signed (BitVec.ofInt w q) = q := by
  obtain ⟨x, rfl⟩ := h
  rw [ofInt_number]

theorem number_widened (hle : v ≤ w) (x : BitVec v) :
    number signed (widened signed w x) = number signed x := by
  cases signed with
  | true => exact BitVec.toInt_signExtend_of_le hle
  | false => simp [number, widened, BitVec.toNat_setWidth_of_le hle]

theorem Represents.mono (h : Represents signed v q) (hle : v ≤ w) :
    Represents signed w q := by
  obtain ⟨x, rfl⟩ := h
  exact ⟨widened signed w x, number_widened hle x⟩

theorem represents_signed (hw : 0 < w) :
    Represents true w q ↔ -2 ^ (w - 1) ≤ q ∧ q < 2 ^ (w - 1) := by
  constructor
  · rintro ⟨x, rfl⟩
    exact ⟨BitVec.le_toInt x, BitVec.toInt_lt⟩
  · rintro ⟨h1, h2⟩
    exact ⟨BitVec.ofInt w q, BitVec.toInt_ofInt_eq_self hw h1 h2⟩

theorem represents_unsigned : Represents false w q ↔ 0 ≤ q ∧ q < 2 ^ w := by
  constructor
  · rintro ⟨x, rfl⟩
    show 0 ≤ (x.toNat : Int) ∧ (x.toNat : Int) < 2 ^ w
    exact ⟨Int.natCast_nonneg _, by exact_mod_cast x.isLt⟩
  · rintro ⟨h1, h2⟩
    obtain ⟨n, rfl⟩ := Int.eq_ofNat_of_zero_le h1
    refine ⟨BitVec.ofNat w n, ?_⟩
    have : n < 2 ^ w := by exact_mod_cast h2
    simp [number, Nat.mod_eq_of_lt this]

/-- A remainder lies between zero and the dividend. -/
theorem tmod_between (a b : Int) : 0 ≤ a.tmod b ∧ a.tmod b ≤ a ∨
    a ≤ a.tmod b ∧ a.tmod b ≤ 0 := by
  have habs : (a.tmod b).natAbs ≤ a.natAbs := by
    rw [Int.natAbs_tmod]
    exact Nat.mod_le _ _
  rcases Int.le_total 0 a with ha | ha
  · have := Int.tmod_nonneg b ha
    omega
  · have hneg := Int.tmod_nonneg b (Int.neg_nonneg_of_nonpos ha)
    rw [Int.neg_tmod] at hneg
    omega

theorem represents_tmod (hw : 0 < w) (x : BitVec w) (b : Int) :
    Represents signed w ((number signed x).tmod b) := by
  have hx : Represents signed w (number signed x) := ⟨x, rfl⟩
  have hr := tmod_between (number signed x) b
  have hpos : (0 : Int) < 2 ^ (w - 1) := Int.pow_pos (by decide)
  cases signed with
  | true =>
    rw [represents_signed hw] at hx ⊢
    omega
  | false =>
    rw [represents_unsigned] at hx ⊢
    omega

/-- The upper half of a word that is extended to twice its width. -/
def fill (signed : Bool) (x : BitVec w) : BitVec w :=
  if signed && x.msb then .allOnes w else 0

/-- Quotient and remainder of a pair of words. -/
def divider : Bool → Nat → BitVec 64 → BitVec 64 → BitVec 64 →
    Option (BitVec 64 × BitVec 64)
  | true => divideSigned
  | false => divideUnsigned

theorem toInt_fill (hw : 0 < w) (x : BitVec w) :
    (fill true x).toInt * 2 ^ w + (x.toNat : Int) = x.toInt := by
  rw [fill, Bool.true_and, BitVec.toInt_eq_msb_cond x]
  split
  · rw [BitVec.toInt_allOnes, if_pos hw, Int.natCast_pow]
    show -1 * 2 ^ w + (x.toNat : Int) = x.toNat - 2 ^ w
    omega
  · simp

/--
Dividing a word that was extended to a pair gives the quotient and the remainder of the
word.
-/
theorem divide_extended (hw : 0 < w) {high low : BitVec 64} {a : Int}
    (ha : number signed (low.setWidth w) = a)
    (hb : number signed (divisor.setWidth w) = b)
    (hhigh : high.setWidth w = fill signed (low.setWidth w)) (hzero : b ≠ 0)
    (hfits : Represents signed w (a.tdiv b)) :
    divider signed w high low divisor =
      some (BitVec.ofInt 64 (a.tdiv b), BitVec.ofInt 64 (a.tmod b)) := by
  subst ha hb
  cases signed with
  | true =>
    obtain ⟨hlow, hlt⟩ := (represents_signed hw).mp hfits
    have hpair : (high.setWidth w).toInt * 2 ^ w + ((low.setWidth w).toNat : Int) =
        (low.setWidth w).toInt := by
      rw [hhigh, toInt_fill hw]
    simp only [divider, divideSigned, hpair]
    refine if_neg ?_
    rintro (hd | hd | hd)
    · exact hzero hd
    · exact absurd hlow (Int.not_le.mpr hd)
    · exact absurd hlt (Int.not_lt.mpr hd)
  | false =>
    have hpair : (high.setWidth w).toNat * 2 ^ w + (low.setWidth w).toNat =
        (low.setWidth w).toNat := by
      rw [hhigh]
      simp [fill]
    have hne : (divisor.setWidth w).toNat ≠ 0 := fun hd => hzero (by simp [number, hd])
    have hlt := Nat.lt_of_le_of_lt
      (Nat.div_le_self (low.setWidth w).toNat (divisor.setWidth w).toNat)
      (low.setWidth w).isLt
    simp only [divider, divideUnsigned, hpair]
    rw [if_neg (by omega)]
    show _ = some
      (BitVec.ofInt 64 (((low.setWidth w).toNat : Int).tdiv (divisor.setWidth w).toNat),
        BitVec.ofInt 64 (((low.setWidth w).toNat : Int).tmod (divisor.setWidth w).toNat))
    rw [← Int.ofNat_tdiv, ← Int.ofNat_tmod, BitVec.ofInt_natCast, BitVec.ofInt_natCast]

theorem setWidth_ofInt (hle : v ≤ w) (q : Int) :
    (BitVec.ofInt w q).setWidth v = BitVec.ofInt v q := by
  have hdvd : ((2 ^ v : Nat) : Int) ∣ ((2 ^ w : Nat) : Int) :=
    Int.natCast_dvd_natCast.mpr (Nat.pow_dvd_pow 2 hle)
  have hpos : ((2 ^ w : Nat) : Int) ≠ 0 := Int.natCast_ne_zero.mpr (Nat.two_pow_pos w).ne'
  apply BitVec.eq_of_toInt_eq
  rw [BitVec.toInt_setWidth, BitVec.toInt_ofInt, BitVec.toNat_ofInt,
    Int.toNat_of_nonneg (Int.emod_nonneg _ hpos),
    Int.bmod_def, Int.bmod_def, Int.emod_emod_of_dvd _ hdvd]

/-! ## Widening -/

theorem eq_i8_of_wider {st : Storage} (h : workStorage st ≠ st) : st = .i8 := by
  unfold workStorage at h
  split at h
  · assumption
  · exact absurd rfl h

/--
Extending the low bits of a word gives it back just when it stands for a number of their
width.
-/
theorem widened_setWidth_iff (hle : v ≤ w) {x : BitVec w} :
    widened signed w (x.setWidth v) = x ↔ Represents signed v (number signed x) := by
  constructor
  · intro h
    refine ⟨x.setWidth v, ?_⟩
    rw [← number_widened hle, h]
  · rintro ⟨z, hz⟩
    have hlow : x.setWidth v = z := by
      rw [← ofInt_number signed x, ← hz, setWidth_ofInt hle, ofInt_number]
    rw [hlow, ← ofInt_number signed x, ← hz, ← number_widened hle z, ofInt_number]

/--
A byte constant is widened as a register is if its type is unsigned, or its low half is a
signed byte.
-/
theorem setWidth_widenImm_iff {src : Storage} (hsrc : src.width = 8) :
    (widenImm signed src k).toBitVec.setWidth 32 =
      widened signed 32 (k.toBitVec.setWidth 8) ↔
      (signed = true → Represents true 8 (k.toBitVec.setWidth 32).toInt) := by
  cases signed with
  | true =>
    have hlow : k.toBitVec.setWidth 8 = (k.toBitVec.setWidth 32).setWidth 8 :=
      (BitVec.setWidth_setWidth_of_le _ (by decide)).symm
    rw [hlow, eq_comm]
    exact (widened_setWidth_iff (by decide)).trans ⟨fun h _ => h, fun h => h rfl⟩
  | false =>
    refine ⟨fun _ h => absurd h Bool.false_ne_true, fun _ => ?_⟩
    have hmask : (lowMask src).toBitVec = 255#64 := by
      revert hsrc
      cases src <;> decide
    show (k &&& lowMask src).toBitVec.setWidth 32 = (k.toBitVec.setWidth 8).setWidth 32
    rw [Int64.toBitVec_and, hmask]
    apply BitVec.eq_of_toNat_eq
    simp only [BitVec.toNat_setWidth, BitVec.toNat_and, BitVec.toNat_ofNat]
    rw [show 255 % 2 ^ 64 = 2 ^ 8 - 1 from rfl, Nat.and_two_pow_sub_one_eq_mod]

/-- An operand brought to the class that a division computes in. -/
inductive Widening (signed : Bool) (st : Storage) (n : Nat) (o : Operand) :
    Operand → List Code → Nat → Prop
  | keep (same : workStorage st = st) : Widening signed st n o o [] n
  | constant {k : Int64} (wider : workStorage st ≠ st) (form : o.form = .imm k) :
      Widening signed st n o ⟨.imm (widenImm signed o.storage k), workStorage st⟩ [] n
  | register {r : VReg} (wider : workStorage st ≠ st) (fresh : r.index.toNat = n) :
      Widening signed st n o ⟨.virt r, workStorage st⟩
        [⟨wideningOp signed, [⟨.virt r, workStorage st⟩, o]⟩] (n + 1)

variable {st work : Storage} {o o' l r d : Operand} {code : List Code}

theorem Widening.le (h : Widening signed st n o o' code m) : n ≤ m := by
  cases h with
  | keep | constant => exact Nat.le_refl _
  | register => exact Nat.le_succ _

/-- What a widening instruction leaves in its register. -/
theorem step_wideningOp {r : VReg} (ho : o.width = 8) (h : Host) (σ : Cpu) :
    ∃ τ, h.step σ ⟨wideningOp signed, [⟨.virt r, .i32⟩, o]⟩ = some (.falls τ) ∧
      (τ.virt r).setWidth 32 = widened signed 32 ((h.read σ o).setWidth 8) := by
  obtain ⟨z, hz, hvalue⟩ :=
    converts_wideningOp signed 32 o.width (σ.virt r) (h.read σ o) (by decide)
  obtain ⟨τ, hstep, hτ⟩ : ∃ τ,
    h.step σ ⟨wideningOp signed, [⟨.virt r, .i32⟩, o]⟩ = some (.falls τ) ∧
      (τ.virt r).setWidth 32 = z.setWidth 32 := compute_to_virt hz
  rw [ho] at hvalue
  exact ⟨τ, hstep, hτ.trans hvalue⟩

/-- The widened operand stands for the same number. -/
theorem Widening.run (hw : Widening signed st n o o' code m) (ho : o.Source n st.width)
    (direct : o.needsAddress = false)
    (hrange : signed = true → ∀ k, o.form = .imm k → Represents true st.width k.toInt)
    (h : Host) (σ : Cpu) :
    ∃ τ, h.run code σ = some (.falls τ) ∧ Keeps n σ τ ∧
      o'.Source m (workStorage st).width ∧
      o'.needsAddress = false ∧ (h.value τ o').setWidth (workStorage st).width =
        widened signed (workStorage st).width ((h.value σ o).setWidth st.width) := by
  cases hw with
  | keep same =>
    rw [same]
    exact ⟨σ, rfl, .refl n σ, ho, direct, (widened_self _ _).symm⟩
  | @constant k wider form =>
    obtain rfl := eq_i8_of_wider wider
    refine ⟨σ, rfl, .refl n σ, ⟨trivial, rfl, fun haddress => by cases haddress⟩, rfl, ?_⟩
    have hvalue : h.value σ o = k.toBitVec := by
      rw [value_of_direct direct, Host.read, form]
    rw [hvalue]
    refine (setWidth_widenImm_iff ho.width).mpr fun hs => ?_
    obtain ⟨z, hz⟩ := hrange hs k form
    have hword : k.toBitVec = BitVec.ofInt 64 z.toInt := by
      rw [show z.toInt = k.toBitVec.toInt from hz, BitVec.ofInt_toInt]
    rw [hword, setWidth_ofInt (by decide)]
    exact ⟨z, (number_ofInt (.mono ⟨z, rfl⟩ (by decide))).symm⟩
  | @register r wider fresh =>
    obtain rfl := eq_i8_of_wider wider
    obtain ⟨τ, hstep, hvalue⟩ := step_wideningOp ho.width h σ
    have hquiet : (⟨wideningOp signed, [⟨.virt r, .i32⟩, o]⟩ : Code).Quiet n :=
      quiet_of_virt (clobbersNothing_wideningOp signed) (Nat.le_of_eq fresh.symm)
    refine ⟨τ, Host.run_singleton.trans hstep, Keeps.of_step hquiet hstep,
      ⟨?_, rfl, fun haddress => by cases haddress⟩, rfl, ?_⟩
    · exact Nat.lt_succ_of_le (Nat.le_of_eq fresh)
    · rw [value_of_direct direct]
      exact hvalue

/-! ## The pair -/

/-- What a division gives. -/
def quotient (remainder : Bool) (x y : Int) : Int :=
  if remainder then x.tmod y else x.tdiv y

theorem nullary_signExtension {op : Op} (hop : signExtension work = .ok op) (σ : Cpu) :
    Host.nullary σ op = some (.falls (σ.signFill work.width)) := by
  cases work <;> cases hop <;> rfl

/-- The pair holds a word of the given width, extended. -/
structure Extends (signed : Bool) (w : Nat) (x : BitVec w) (phys : PhysReg → BitVec 64) :
    Prop where
  low : (phys .rax).setWidth w = x
  high : (phys .rdx).setWidth w = fill signed x

theorem extends_signFill (hw : w ≤ 64) (σ : Cpu) :
    Extends true w ((σ.phys .rax).setWidth w) (σ.signFill w).phys := by
  refine ⟨rfl, (setWidth_merge hw _ _).trans ?_⟩
  rw [fill, Bool.true_and, apply_ite (BitVec.setWidth w)]
  have hones : (-1 : BitVec 64).setWidth w = .allOnes w := by
    ext i hi
    rw [BitVec.getElem_setWidth, show (-1 : BitVec 64) = .allOnes 64 from rfl,
      BitVec.getLsbD_allOnes, BitVec.getElem_allOnes, decide_eq_true (by omega)]
  rw [hones, show (0 : BitVec 64).setWidth w = 0 from BitVec.setWidth_zero w 64]

theorem extends_clear (hw : w ≤ 64) (σ : Cpu) :
    Extends false w ((σ.phys .rax).setWidth w)
    (σ.setPhys w .rdx (σ.phys .rdx ^^^ σ.phys .rdx)).phys := by
  refine ⟨rfl, (setWidth_merge hw _ _).trans ?_⟩
  rw [BitVec.xor_self]
  exact BitVec.setWidth_zero w 64

/-- Dividing the pair leaves quotient and remainder in its halves. -/
theorem divide_pair {x : BitVec w} (hw : 8 < w) (hle : w ≤ 64)
    (hpair : Extends signed w x σ.phys) (hb : number signed (divisor.setWidth w) = b)
    (hzero : b ≠ 0) (hfits : Represents signed w ((number signed x).tdiv b)) :
    ∃ τ, σ.divide (divider signed) w divisor = some τ ∧ τ.virt = σ.virt ∧ ∀ remainder,
      (τ.phys (resultRegister remainder)).setWidth w =
        BitVec.ofInt w (quotient remainder (number signed x) b) := by
  have hdivide := divide_extended (by omega) (congrArg (number signed) hpair.low) hb
    (hpair.high.trans (by rw [hpair.low])) hzero hfits
  have hresult : σ.divide (divider signed) w divisor = some ((σ.setPhys w .rax
      (.ofInt 64 ((number signed x).tdiv b))).setPhys w .rdx
      (.ofInt 64 ((number signed x).tmod b))) := by
    rw [Cpu.divide, if_neg (by omega), hdivide]
    rfl
  refine ⟨_, hresult, rfl, fun remainder => ?_⟩
  cases remainder with
  | true | false => exact (setWidth_merge hle _ _).trans (setWidth_ofInt hle _)

theorem Divides.run {q : VReg} {h : Host} (hcode : Divides work r signed code)
    (hwork : 8 < work.width) (hr : r.form = .virt q) (hwidth : r.width = work.width)
    (hx : number signed ((σ.phys .rax).setWidth work.width) = x)
    (hy : number signed ((h.read σ r).setWidth work.width) = y) (hzero : y ≠ 0)
    (hfits : Represents signed work.width (x.tdiv y)) :
    ∃ τ, h.run code σ = some (.falls τ) ∧ τ.virt = σ.virt ∧ ∀ remainder,
      (τ.phys (resultRegister remainder)).setWidth work.width =
        BitVec.ofInt work.width (quotient remainder x y) := by
  subst hx
  have hread : ∀ τ : Cpu, τ.virt = σ.virt → h.read τ r = h.read σ r := by
    intro τ hτ
    simp only [Host.read, hr, hτ]
  cases hcode with
  | signed fill =>
    obtain ⟨τ, hdivide, hvirt, hresult⟩ := divide_pair hwork work.width_le
      (extends_signFill work.width_le σ) hy hzero hfits
    refine ⟨{ τ with status := h.status .idiv (σ.signFill work.width) }, ?_,
      hvirt, hresult⟩
    have hstep : h.step (σ.signFill work.width) ⟨.idiv, [r]⟩ =
        some (.falls { τ with status := h.status .idiv (σ.signFill work.width) }) := by
      simp only [Host.step, Host.unary, hwidth, hread (σ.signFill work.width) rfl]
      rw [show divideSigned = divider true from rfl, hdivide]
      rfl
    have hfill : h.step σ ⟨_, []⟩ = some (.falls (σ.signFill work.width)) :=
      nullary_signExtension fill σ
    rw [Host.run_cons_of_falls hfill, Host.run_singleton, hstep]
  | unsigned =>
    let ρ : Cpu :=
      { σ.setPhys work.width .rdx (σ.phys .rdx ^^^ σ.phys
        .rdx) with status := h.status .xor σ }
    have hpair : Extends false work.width ((σ.phys .rax).setWidth work.width) ρ.phys :=
      extends_clear work.width_le σ
    obtain ⟨τ, hdivide, hvirt, hresult⟩ :=
      divide_pair hwork work.width_le hpair hy hzero hfits
    refine ⟨{ τ with status := h.status .div ρ }, ?_, hvirt, hresult⟩
    have hclear : h.step σ ⟨.xor, [⟨.phys .rdx, work⟩, ⟨.phys .rdx, work⟩]⟩ =
      some (.falls ρ) := rfl
    have hstep : h.step ρ ⟨.div, [r]⟩ =
        some (.falls { τ with status := h.status .div ρ }) := by
      simp only [Host.step, Host.unary, hwidth, hread ρ rfl]
      rw [show divideUnsigned = divider false from rfl, hdivide]
      rfl
    rw [Host.run_cons_of_falls hclear, Host.run_singleton, hstep]

/-! ## Saves and reloads -/

/-- A move to memory. -/
def Code.IsSave (c : Code) : Prop := ∃ a st o, c = ⟨.mov, [⟨.mem a, st⟩, o]⟩

/-- A move to a physical register. -/
def Code.IsReload (c : Code) : Prop := ∃ r st o, c = ⟨.mov, [⟨.phys r, st⟩, o]⟩

theorem run_saves_virt (hsaves : ∀ c ∈ code, c.IsSave) (h : Host) (σ : Cpu) :
    ∃ memory, h.run code σ = some (.falls { σ with memory }) := by
  induction code generalizing σ with
  | nil => exact ⟨_, rfl⟩
  | cons c rest ih =>
    obtain ⟨a, st, o, rfl⟩ := hsaves c (by simp)
    exact ih (fun c hc => hsaves c (by simp [hc])) (h.write σ ⟨.mem a, st⟩ (h.read σ o))

theorem run_reloads_virt (hreloads : ∀ c ∈ code, c.IsReload) (h : Host) (σ : Cpu) :
    ∃ phys, h.run code σ = some (.falls { σ with phys }) := by
  induction code generalizing σ with
  | nil => exact ⟨_, rfl⟩
  | cons c rest ih =>
    obtain ⟨r, st, o, rfl⟩ := hreloads c (by simp)
    exact ih (fun c hc => hreloads c (by simp [hc]))
      (h.write σ ⟨.phys r, st⟩ (h.read σ o))

/-! ## The code of a division -/

/-- The result at the class of the type. -/
inductive Narrowing (st : Storage) (q : VReg) : Operand → List Code → Prop
  | keep (same : workStorage st = st) : Narrowing st q ⟨.virt q, st⟩ []
  | copy {p : VReg} (wider : workStorage st ≠ st) :
      Narrowing st q ⟨.virt p, st⟩ [⟨.mov, [⟨.virt p, st⟩, ⟨.virt q, workStorage st⟩]⟩]

theorem width_le_workStorage (st : Storage) : st.width ≤ (workStorage st).width := by
  cases st <;> decide

theorem Narrowing.run {q : VReg} (hn : Narrowing st q d code) (h : Host) (σ : Cpu) :
    ∃ τ, h.run code σ = some (.falls τ) ∧
      (h.value τ d).setWidth st.width = (σ.virt q).setWidth st.width := by
  cases hn with
  | keep => exact ⟨σ, rfl, rfl⟩
  | @copy p =>
    obtain ⟨τ, hstep, -, hτ⟩ := copy_to_virt p st ⟨.virt q, workStorage st⟩ h σ
    exact ⟨τ, Host.run_singleton.trans hstep, hτ⟩

/--
`DivisionCode remainder signed st n l r d code`: `code` divides `l` by `r`, numbers of
class `st`, and leaves the result in `d`. The virtual registers from `n` on are fresh.
-/
inductive DivisionCode (remainder signed : Bool) (st : Storage) (n : Nat)
    (l r : Operand) :
    Operand → List Code → Prop
  | mk {l1 l2 r1 r2 r3 d : Operand} {c1 c2 c3 c4 c5 saves divide reloads c6 : List Code}
      {n1 n2 n3 n4 n5 : Nat} {q : VReg} (left : Fetch n l l1 c1 n1)
      (leftDirect : l1.needsAddress = false) (right : Fetch n1 r r1 c2 n2)
      (rightDirect : r1.needsAddress = false)
      (wideLeft : Widening signed st n2 l1 l2 c3 n3)
      (wideRight : Widening signed st n3 r1 r2 c4 n4) (divisor : Fetch n4 r2 r3 c5 n5)
      (apart : (∃ p, r3.form = .virt p) ∨ ∃ a, r3.form = .mem a)
      (saved : ∀ c ∈ saves, c.IsSave)
      (divides : Divides (workStorage st) r3 signed divide)
      (reloaded : ∀ c ∈ reloads, c.IsReload) (narrow : Narrowing st q d c6) :
      DivisionCode remainder signed st n l r d
      (c1 ++ (c2 ++ (c3 ++ (c4 ++ (c5 ++ (saves ++
        (⟨.mov, [⟨.phys .rax, workStorage st⟩, l2]⟩ ::
        (divide ++ (⟨.mov, [⟨.virt q, workStorage st⟩,
          ⟨.phys (resultRegister remainder), workStorage st⟩]⟩ :: (reloads ++ c6))))))))))

theorem DivisionCode.width (hcode : DivisionCode remainder signed st n l r d code) :
    d.width = st.width := by
  cases hcode with
  | mk _ _ _ _ _ _ _ _ _ _ _ narrow => cases narrow <;> rfl

theorem Fetch.imm (hf : Fetch n o o' code m) (ho : o'.form = .imm k) :
    o.form = .imm k := by
  cases hf with
  | keep => exact ho
  | copy => cases ho

/--
A division leaves quotient or remainder in its result, unless the quotient does not exist
or not fit.
-/
theorem DivisionCode.computes (hcode : DivisionCode remainder signed st n l r d code)
    (hst : 8 < (workStorage st).width) (hl : l.Source n st.width)
    (hr : r.Source n st.width)
    (hrange : signed = true → ∀ k, l.form = .imm k ∨ r.form = .imm k →
      Represents true st.width k.toInt)
    (h : Host) (σ : Cpu) (hx : number signed ((h.value σ l).setWidth st.width) = x)
    (hy : number signed ((h.value σ r).setWidth st.width) = y) (hzero : y ≠ 0)
    (hfits : Represents signed st.width (x.tdiv y)) :
    ∃ τ, h.run code σ = some (.falls τ) ∧
      number signed ((h.value τ d).setWidth st.width) = quotient remainder x y := by
  obtain @⟨l1, l2, r1, r2, r3, d, c1, c2, c3, c4, c5, saves, divide, reloads, c6, n1, n2,
    n3, n4, n5, q, left, leftDirect, right, rightDirect, wideLeft, wideRight, divisor,
    apart, saved, divides, reloaded, narrow⟩ := hcode
  have hle := width_le_workStorage st
  -- Both operands are fetched, and then widened.
  have hl1 := left.source hl
  have hr1 := right.source (hr.mono left.le)
  obtain ⟨σ1, run1, keeps1, value1⟩ := left.run_source hl h σ
  obtain ⟨σ2, run2, keeps2, value2⟩ := right.run_source (hr.mono left.le) h σ1
  obtain ⟨σ3, run3, keeps3, hl2, leftDirect2, value3⟩ :=
    wideLeft.run (hl1.mono right.le) leftDirect
    (fun hs k hk => hrange hs k (.inl (left.imm hk))) h σ2
  obtain ⟨σ4, run4, keeps4, hr2, rightDirect2, value4⟩ :=
    wideRight.run (hr1.mono wideLeft.le) rightDirect
    (fun hs k hk => hrange hs k (.inr (right.imm hk))) h σ3
  obtain ⟨σ5, run5, keeps5, value5⟩ := divisor.run_source hr2 h σ4
  obtain ⟨memory, run6⟩ := run_saves_virt saved h σ5
  have keeps6 : Keeps n5 σ5 { σ5 with memory } := ⟨rfl, fun _ _ => rfl⟩
  have hl5 := (hl2.mono wideRight.le).mono divisor.le
  have hr3 := divisor.source hr2
  -- What is divided are the numbers of the operands.
  let ρ : Cpu :=
    h.write { σ5 with memory } ⟨.phys .rax, workStorage st⟩ (h.read { σ5 with memory } l2)
  have hlow : number signed ((ρ.phys .rax).setWidth (workStorage st).width) = x := by
    have hread : (ρ.phys .rax).setWidth (workStorage st).width =
        (h.value { σ5 with memory } l2).setWidth (workStorage st).width := by
      rw [value_of_direct leftDirect2]
      exact setWidth_merge (workStorage st).width_le _ _
    rw [hread, keeps6.value hl5.steady, keeps5.value (hl2.mono wideRight.le).steady,
      keeps4.value hl2.steady,
      value3, number_widened hle, keeps2.value hl1.steady, value1, hx]
  obtain ⟨p, hp⟩ : ∃ p, r3.form = .virt p := by
    rcases apart with hp | ⟨a, ha⟩
    · exact hp
    · exact absurd hr3.steady (by simp [Operand.Steady, ha])
  have hdivisor : number signed ((h.read ρ r3).setWidth (workStorage st).width) = y := by
    have hread : h.read ρ r3 = h.value { σ5 with memory } r3 := by
      simp only [Host.value, Operand.needsAddress, Host.read, hp]
      rfl
    rw [hread, keeps6.value hr3.steady, value5, value4, number_widened hle,
      keeps3.value hr1.steady, value2, keeps1.value hr.steady, hy]
  obtain ⟨σ7, run7, -, result7⟩ :=
    divides.run hst hp hr3.width hlow hdivisor hzero (hfits.mono hle)
  obtain ⟨σ8, step8, -, value8⟩ := copy_to_virt q (workStorage st)
    ⟨.phys (resultRegister remainder), workStorage st⟩ h σ7
  obtain ⟨phys, run9⟩ := run_reloads_virt reloaded h σ8
  obtain ⟨τ, run10, value10⟩ := narrow.run h { σ8 with phys }
  refine ⟨τ, ?_, ?_⟩
  · have hmov : h.step { σ5 with memory } ⟨.mov, [⟨.phys .rax, workStorage st⟩, l2]⟩ =
      some (.falls ρ) := rfl
    rw [Host.run_append_of_falls run1, Host.run_append_of_falls run2,
      Host.run_append_of_falls run3,
      Host.run_append_of_falls run4, Host.run_append_of_falls run5,
      Host.run_append_of_falls run6,
      Host.run_cons_of_falls hmov, Host.run_append_of_falls run7]
    exact (Host.run_cons_of_falls step8).trans
      ((Host.run_append_of_falls run9).trans run10)
  · have hword : (h.value τ d).setWidth st.width =
        BitVec.ofInt st.width (quotient remainder x y) := by
      have hresult := value8.trans (result7 remainder)
      rw [value10, ← setWidth_ofInt hle, ← hresult, BitVec.setWidth_setWidth_of_le _ hle]
    rw [hword, number_ofInt]
    cases remainder with
    | true =>
      have hpos : 0 < st.width := by
        revert hst
        cases st <;> decide
      rw [← hx]
      exact represents_tmod hpos _ _
    | false => exact hfits

end InstSelect.Machine

namespace InstSelect.Lowering

open IR (ValueId InstId Inst Ty)
open Machine (Storage Operand OperandId PhysReg VReg Arena Host Cpu Widening Narrowing
  DivisionCode Represents number)

variable {env : Env} {s s' t : State} {A : Arena} {st : Storage}
  {signed remainder : Bool} {id src : OperandId} {ys : List (OperandId × OperandId)}
  {i : Inst} {ty : Ty}

/-! ## Parts of a division -/

/-- Operands are widened where the type is narrower than the class of the division. -/
theorem widening_code
    (h : Runs
      (if workStorage st = st then pure src else widen src (workStorage st) signed)
      env s id s') :
    ∃ code, Path env s s' code ∧ ∀ (A : Arena) (o : Operand), s'.Within A →
      A.get? src = some o →
      ∃ o', A.get? id = some o' ∧ Widening signed st s.vregs o o' code s'.vregs := by
  split at h
  · next same =>
    obtain ⟨rfl, rfl⟩ := runs_pure.mp h
    exact ⟨[], .refl s, fun A o _ ho => ⟨o, ho, .keep same⟩⟩
  · next wider =>
    obtain ⟨code, hpath, hcode⟩ := widen_code h
    refine ⟨code, hpath, fun A o hA ho => ?_⟩
    obtain ⟨o', ho', ⟨k, hk, hid, rfl, hvregs⟩ | ⟨r, hr, hid, rfl, hvregs, -⟩⟩ :=
      hcode A hA
    · cases ho.symm.trans ho'
      exact ⟨_, hid, hvregs ▸ .constant wider hk⟩
    · cases ho.symm.trans ho'
      exact ⟨_, hid, hvregs ▸ .register wider hr⟩

theorem saveArgs_code {xs : List (OperandId × Nat)}
    (h : Runs (xs.mapM saveArg) env s ys s') :
    ∃ code, Path env s s' code ∧ s'.vregs = s.vregs ∧ ys.map Prod.fst = xs.map Prod.fst ∧
      ((∃ A : Arena, s'.Within A) → ∀ c ∈ code, c.IsSave) := by
  induction xs generalizing s ys with
  | nil =>
    obtain ⟨rfl, rfl⟩ := runs_mapM_nil.mp h
    exact ⟨[], .refl s, rfl, rfl, by simp⟩
  | cons x xs ih =>
    obtain ⟨y, t, ys, hy, hys, rfl⟩ := runs_mapM_cons.mp h
    obtain ⟨code, hpath, hvregs, hids, hcode⟩ := ih hys
    simp only [saveArg, shadowSlot, runs_bind, runs_storage, runs_theAbi, runs_checkWord,
      runs_pure] at hy
    obtain ⟨_, _, ⟨o, ho, rfl⟩, slot, t', ⟨_, _, ⟨rfl, rfl⟩, disp, _, ⟨-, rfl⟩, hslot⟩, _,
      _, hemit, rfl, rfl⟩ := hy
    obtain ⟨c, hc, _, rfl⟩ := runs_operand.mp ho
    have hadds := mem_adds hslot (by
      intro c r _ hr
      rcases List.mem_cons.mp hr with hr | hr <;> cases hr)
    obtain ⟨os, hpath', hvregs', -, hos⟩ := emit_path hemit
    refine ⟨_, (hadds.path.after hpath').trans hpath,
      by rw [hvregs, hvregs', hadds.vregs], by simp [hids], ?_⟩
    rintro ⟨A, hA⟩ c hc
    have ht := hpath.within hA
    obtain ⟨p, q, hp, hq, rfl⟩ := mapM_pair.mp (hos A ht)
    cases (hadds.get A (hpath'.within ht)).symm.trans hp
    rcases List.mem_append.mp hc with hc | hc
    · obtain rfl := List.mem_singleton.mp hc
      exact ⟨_, _, _, rfl⟩
    · exact hcode ⟨A, hA⟩ c hc

theorem reloadArgs_code {u : Unit} (h : Runs (ys.forM reloadArg) env s u s') :
    ∃ code, Path env s s' code ∧ s'.vregs = s.vregs ∧ ∀ A : Arena, s'.Within A →
      (∀ y ∈ ys, ∃ r st, A.get? y.1 = some ⟨.phys r, st⟩) → ∀ c ∈ code, c.IsReload := by
  induction ys generalizing s with
  | nil =>
    obtain rfl := runs_forM_nil.mp h
    exact ⟨[], .refl s, rfl, by simp⟩
  | cons y ys ih =>
    obtain ⟨t, hreload, hrest⟩ := runs_forM_cons.mp h
    obtain ⟨code, hpath, hvregs, hcode⟩ := ih hrest
    obtain ⟨os, hpath', hvregs', -, hos⟩ := emit_path hreload
    refine ⟨_, hpath'.trans hpath, hvregs.trans hvregs', fun A hA hys c hc => ?_⟩
    obtain ⟨p, q, hp, hq, rfl⟩ := mapM_pair.mp (hos A (hpath.within hA))
    obtain ⟨r, st, hget⟩ := hys y (by simp)
    cases hget.symm.trans hp
    rcases List.mem_append.mp hc with hc | hc
    · obtain rfl := List.mem_singleton.mp hc
      exact ⟨r, st, q, rfl⟩
    · exact hcode A hA (fun z hz => hys z (by simp [hz])) c hc

/-- Under any convention, saves write memory and reloads write physical registers. -/
theorem preserving_code {α : Type} {regs : List PhysReg} {body : LowerM α} {x : α}
    (h : Runs (preserving regs body) env s x s')
    (hbody : ∀ t u, t.vregs = s.vregs → Runs body env t x u → ∃ code, Path env t u code) :
    ∃ t u saves reloads, Path env s t saves ∧ Runs body env t x u ∧
      Path env u s' reloads ∧ t.vregs = s.vregs ∧
      s'.vregs = u.vregs ∧ ∀ A : Arena, s'.Within A →
        (∀ c ∈ saves, c.IsSave) ∧ ∀ c ∈ reloads, c.IsReload := by
  simp only [preserving, runs_bind, runs_pure] at h
  obtain ⟨xs, _, hxs, ys, t, hys, _, u, hrun, _, _, hreload, rfl, rfl⟩ := h
  obtain ⟨rfl, d, hd, hfilter⟩ := argsIn_filter hxs
  obtain ⟨saves, hpre, hvregs, hids, hsaves⟩ := saveArgs_code hys
  obtain ⟨reloads, hpost, hvregs', hreloads⟩ := reloadArgs_code hreload
  obtain ⟨code, hcode⟩ := hbody t u hvregs hrun
  refine ⟨t, u, saves, reloads, hpre, hrun, hpost, hvregs, hvregs', fun A hA => ?_⟩
  have ht := hcode.within (hpost.within hA)
  refine ⟨hsaves ⟨A, ht⟩, hreloads A hA fun y hy => ?_⟩
  -- The arguments that are saved were found in registers.
  obtain ⟨x, hx, hxy⟩ := List.mem_map.mp (hids ▸ List.mem_map_of_mem (f := Prod.fst) hy)
  rw [hfilter (fun x => ((A.get? x.1).map (inRegs regs)).getD false) (by
    intro x o ho
    rw [operand_get ho (hpre.within ht)]
    rfl)] at hx
  have hin := (List.mem_filter.mp hx).2
  rw [hxy] at hin
  cases hget : A.get? y.1 with
  | none => simp [hget] at hin
  | some o =>
    obtain ⟨form, st⟩ := o
    cases form with
    | phys r => exact ⟨r, st, rfl⟩
    | _ => simp [hget, inRegs, Operand.physReg?] at hin

theorem lowerDivision_code {l r : ValueId} (hops : i.operands = [l, r])
    (hty : env.module.valueTy l = .ok ty) (hst : storageOf i.ty = .ok st)
    (h : Runs (lowerDivision remainder i) env s id s') :
    ∃ a b code, Path env s s' code ∧ s'.values.find? l = some a ∧
      s'.values.find? r = some b ∧
      ∀ A : Arena, s'.Within A →
        ∃ x y d, A.get? a = some x ∧ A.get? b = some y ∧ A.get? id = some d ∧
        DivisionCode remainder ty.isSigned st s.vregs x y d code := by
  simp only [lowerDivision, runs_bind, runs_check, runs_isSigned, runs_ite_bind] at h
  obtain ⟨st', _, ⟨hst', rfl⟩, ⟨l', r'⟩, _, ⟨hops', rfl⟩, _, _, ⟨ty', hty', rfl, rfl⟩, l1,
    s1, hl, r1, s2, hr, l2, s3, hl', r2, s4, hr', r3, s5, hdivisor, result, s6, hpair,
    h⟩ := h
  cases hst.symm.trans (storageOf_of_scalarStorage hst')
  cases hops.symm.trans (binaryOperands_eq_ok.mp hops')
  cases hty.symm.trans hty'
  obtain ⟨a, c1, p1, ha, f1⟩ := valueOperand_fetch hl
  obtain ⟨b, c2, p2, hb, f2⟩ := valueOperand_fetch hr
  obtain ⟨c3, p3, f3⟩ := widening_code hl'
  obtain ⟨c4, p4, f4⟩ := widening_code hr'
  obtain ⟨c5, p5, f5⟩ := divisorOperand_fetch hdivisor
  obtain ⟨t, u, saves, reloads, p6, hbody, p8, -, -, f6⟩ :=
    preserving_code hpair fun t u _ hrun => by
    obtain ⟨code, _, hpath, -⟩ := dividePair_code hrun
    exact ⟨code, hpath⟩
  obtain ⟨body, q, p7, -, -, f7⟩ := dividePair_code hbody
  -- A result in a wider class is copied to one of its own.
  have hnarrow : ∃ c6, Path env s6 s' c6 ∧ ∀ (A : Arena) (q : VReg), s'.Within A →
      A.get? result = some ⟨.virt q, workStorage st⟩ →
      ∃ d, A.get? id = some d ∧ Narrowing st q d c6 := by
    split at h
    · next same =>
      obtain ⟨rfl, rfl⟩ := runs_pure.mp h
      exact ⟨[], .refl _, fun A q _ hq => ⟨_, same ▸ hq, .keep same⟩⟩
    · next wider =>
      simp only [runs_bind, runs_pure] at h
      obtain ⟨narrow, s7, hnew, _, s8, hmov, rfl, rfl⟩ := h
      obtain ⟨p, code, -, -, hpath, hcode⟩ := fill_path hnew hmov
      refine ⟨code, hpath, fun A q hA hq => ?_⟩
      obtain ⟨o, ho, hget, rfl⟩ := hcode A hA
      cases hq.symm.trans ho
      exact ⟨_, hget, .copy wider⟩
  obtain ⟨c6, p9, f9⟩ := hnarrow
  have p39 := p3.trans (p4.trans (p5.trans (p6.trans (p7.trans (p8.trans p9)))))
  refine ⟨a, b, _, p1.trans (p2.trans p39), p39.values (p2.values ha), p39.values hb,
    fun A hA => ?_⟩
  have hA6 := p9.within hA
  have hA7 := p8.within hA6
  have hA5 := p6.within (p7.within hA7)
  have hA4 := p5.within hA5
  have hA3 := p4.within hA4
  have hA2 := p3.within hA3
  obtain ⟨x, x1, hx, hx1, left, leftDirect⟩ := f1 A (p2.within hA2)
  obtain ⟨y, y1, hy, hy1, right, rightDirect⟩ := f2 A hA2
  obtain ⟨x2, hx2, wideLeft⟩ := f3 A x1 hA3 hx1
  obtain ⟨y2, hy2, wideRight⟩ := f4 A y1 hA4 hy1
  obtain ⟨y₂', y3, hy₂', hy3, divisor, apart⟩ := f5 A hA5
  cases hy2.symm.trans hy₂'
  obtain ⟨saved, reloaded⟩ := f6 A hA6
  obtain ⟨x₂', y₃', divide, hx₂', hy₃', hq, divides, rfl⟩ := f7 A hA7
  cases hx2.symm.trans hx₂'
  cases hy3.symm.trans hy₃'
  obtain ⟨d, hd, narrow⟩ := f9 A q hA hq
  refine ⟨x, y, d, hx, hy, hd, ?_⟩
  have hcode : DivisionCode remainder ty.isSigned st s.vregs x y d _ :=
    .mk left leftDirect right rightDirect
    wideLeft wideRight divisor apart saved divides reloaded narrow
  simpa only [List.append_assoc, List.cons_append, List.nil_append] using hcode

/-! ## Divisions -/

def divisionOpcode (remainder : Bool) : IR.Opcode := if remainder then .rem else .div

theorem selectInst_division (k : InstId) (hop : i.opcode = divisionOpcode remainder) :
    selectInst k i = some <$> lowerDivision remainder i := by
  cases remainder <;> simp only [selectInst, hop] <;> rfl

/-- The classes that integers are divided in are wider than a byte. -/
theorem wide_of_isInteger (hint : ty.isInteger = true) (hst : storageOf ty = .ok st) :
    8 < (workStorage st).width := by
  cases ty with
  | bool => cases hst; decide
  | int width | uint width => cases width <;> cases hst <;> decide
  | _ => cases hint

/-- The word of a constant is in the range of a type if integer constants are. -/
theorem represents_of_wordOf {v : ValueId} {n : Int64} {w : Nat}
    (hty : env.module.valueTy v = .ok ty) (hword : WordOf env.module v n)
    (hint : env.module.value v = .ok ⟨ty, .constant (.int n)⟩ →
      Represents true w n.toInt) :
    Represents true w n.toInt := by
  obtain ⟨ty', k, hv, hk⟩ := hword
  obtain ⟨kind, hv'⟩ := valueTy_eq_ok.mp hty
  cases hv.symm.trans hv'
  cases k with
  | int m =>
    cases hk
    exact hint hv
  | null | zero | undef =>
    cases hk
    exact ⟨0, BitVec.toInt_zero⟩
  | _ => cases hk

/--
A division of two values of one integer type does not fault where the divisor is not zero
and the quotient is a number of the type. It leaves in its result the quotient, rounded to
zero, or the remainder, which has the sign of the dividend.
-/
theorem selectInst_divides {func : IR.FuncId} {k : InstId} {i : Inst} {l r : ValueId}
    {ty : Ty} {w : Nat} {c : Current} (hs : Reached env func s)
    (hop : i.opcode = divisionOpcode remainder) (hops : i.operands = [l, r])
    (hty : i.ty = ty) (hl : env.module.valueTy l = .ok ty)
    (hr : env.module.valueTy r = .ok ty) (hint : ty.isInteger = true)
    (hw : ty.width? = some w) (hrun : Runs (selectInst k i) env s (some id) s')
    (hc : s'.current = some c) (hsmall : c.machine.operands.size ≤ 2 ^ 32)
    (hwidths : ∀ v ∈ [l, r], ∀ o, s'.Locates v o → o.width = w)
    (hrange : ∀ v ∈ [l, r], ∀ n, env.module.value v = .ok ⟨ty, .constant (.int n)⟩ →
      ty.isSigned = true →
      Represents true w n.toInt) :
    ∃ insts code a b d, Gains s s' insts ∧ c.machine.decode insts = some code ∧
      s'.Locates l a ∧ s'.Locates r b ∧
      s'.Holds id d ∧ d.width = w ∧ ∀ (h : Host) (σ : Cpu) (x y : Int),
        number ty.isSigned ((h.value σ a).setWidth w) = x →
          number ty.isSigned ((h.value σ b).setWidth w) = y →
        y ≠ 0 → Represents ty.isSigned w (x.tdiv y) →
        ∃ τ, h.run code σ = some (.falls τ) ∧
          number ty.isSigned ((h.value τ d).setWidth w) =
            if remainder then x.tmod y else x.tdiv y := by
  subst hty
  rw [selectInst_division k hop] at hrun
  obtain ⟨_, heq, hrun⟩ := some_map hrun
  cases heq
  obtain ⟨st, hst, -, rfl⟩ := storageOf_of_width hw
  obtain ⟨a, b, code, hpath, ha, hb, hcode⟩ := lowerDivision_code hops hl hst hrun
  obtain ⟨x, y, d, hx, hy, hd, hcode⟩ := hcode _ (within_arena hc hsmall)
  replace hx := holds_of_arena hc hx
  replace hy := holds_of_arena hc hy
  obtain ⟨insts, hgains, hdecodes⟩ := hpath.gains hc
  have hs' := State.Small.of_current hc hsmall
  obtain ⟨hxs, hxw⟩ := hs.source hpath hs' ha hx
  obtain ⟨hys, hyw⟩ := hs.source hpath hs' hb hy
  rw [hwidths l (by simp) x ⟨a, ha, hx⟩] at hxs
  rw [hwidths r (by simp) y ⟨b, hb, hy⟩] at hys
  refine ⟨insts, code, x, y, d, hgains, Machine.Function.decode_eq_some.mpr hdecodes,
    ⟨a, ha, hx⟩, ⟨b, hb, hy⟩,
    holds_of_arena hc hd, hcode.width, fun h σ p q hp hq hzero hfits => ?_⟩
  refine hcode.computes (wide_of_isInteger hint hst) hxs hys (fun hsigned n hn => ?_) h σ
    hp hq hzero hfits
  rcases hn with hn | hn
  · exact represents_of_wordOf hl (hxw n hn) fun hv => hrange l (by simp) n hv hsigned
  · exact represents_of_wordOf hr (hyw n hn) fun hv => hrange r (by simp) n hv hsigned

/-! ## A division of bytes -/

/-- The second parameter by the first. -/
def ratio : Inst := ⟨.div, [⟨2⟩, ⟨1⟩], .int .w8, ⟨0⟩, ⟨4⟩⟩

/-- `f(x, y)` is `y / x` for signed bytes; `y` comes in `rdx`. -/
def dividing : IR.Module where
  name := "m"
  values := #[⟨.ptr (.function [.int .w8, .int .w8] (.int .w8) false), .function ⟨0⟩⟩,
    ⟨.int .w8, .argument ⟨0⟩ 0⟩, ⟨.int .w8, .argument ⟨0⟩ 1⟩, ⟨.void, .block ⟨0⟩⟩,
    ⟨.int .w8, .instruction ⟨0⟩⟩]
  insts := #[ratio]
  blocks := #[⟨⟨0⟩, none, [⟨0⟩], ⟨3⟩⟩]
  functions :=
    #[⟨"f", ⟨[.int .w8, .int .w8], .int .w8, false⟩, [⟨1⟩, ⟨2⟩], [⟨0⟩], false, ⟨0⟩⟩]
  globals := #[]

/-- Seven by minus two is minus three, whatever else the registers hold. -/
theorem dividing_divides :
    ∃ s s' c id, Reached ⟨dividing, .win64⟩ ⟨0⟩ s ∧
      Runs (selectInst ⟨0⟩ ratio) ⟨dividing, .win64⟩ s (some id) s' ∧
      s'.current = some c ∧ c.machine.operands.size ≤ 2 ^ 32 ∧
      (∀ v ∈ [(⟨2⟩ : ValueId), ⟨1⟩], ∀ o, s'.Locates v o → o.width = 8) ∧
      (∀ v ∈ [(⟨2⟩ : ValueId), ⟨1⟩], ∀ n,
        dividing.value v = .ok ⟨.int .w8, .constant (.int n)⟩ →
        (Ty.int .w8).isSigned = true → Represents true 8 n.toInt) ∧
      ∃ insts code d, Gains s s' insts ∧ c.machine.decode insts = some code ∧
        s'.Holds id d ∧ d.width = 8 ∧
        ∀ (h : Host) (σ : Cpu), (σ.phys .rdx).setWidth 8 = 7 →
          (σ.phys .rcx).setWidth 8 = -2 →
          ∃ τ, h.run code σ = some (.falls τ) ∧
            ((h.value τ d).setWidth 8).toInt = -3 := by
  obtain ⟨s, hs, hleaves⟩ := reached_of_enters
    (show enters ⟨dividing, .win64⟩ ⟨0⟩ ⟨0⟩ (fun s =>
      leaves (selectInst ⟨0⟩ ratio) ⟨dividing, .win64⟩ s fun result s => result.isSome &&
        s.binds ⟨1⟩ ⟨.phys .rcx, .i8⟩ && s.binds ⟨2⟩ ⟨.phys .rdx, .i8⟩) =
        true by decide +kernel)
  obtain ⟨result, s', hrun, htest⟩ := runs_of_leaves hleaves
  simp only [Bool.and_eq_true] at htest
  obtain ⟨⟨hresult, hx⟩, hy⟩ := htest
  obtain ⟨id, rfl⟩ := Option.isSome_iff_exists.mp hresult
  obtain ⟨_, -, ⟨c, hc, -⟩, hsmall⟩ := State.exists_of_binds hx
  replace hx := State.locates_of_binds hx
  replace hy := State.locates_of_binds hy
  have hwidths : ∀ v ∈ [(⟨2⟩ : ValueId), ⟨1⟩], ∀ o, s'.Locates v o → o.width = 8 := by
    intro v hv o ho
    simp only [List.mem_cons, List.not_mem_nil, or_false] at hv
    rcases hv with rfl | rfl
    · cases hy.unique ho
      rfl
    · cases hx.unique ho
      rfl
  have hrange : ∀ v ∈ [(⟨2⟩ : ValueId), ⟨1⟩], ∀ n,
    dividing.value v = .ok ⟨.int .w8, .constant (.int n)⟩ →
      (Ty.int .w8).isSigned = true → Represents true 8 n.toInt := by
    intro v hv n hn
    simp only [List.mem_cons, List.not_mem_nil, or_false] at hv
    rcases hv with rfl | rfl <;> cases hn
  obtain ⟨insts, code, a, b, d, hgains, hdecode, ha, hb, hd, hwidth, hmeaning⟩ :=
    @selectInst_divides ⟨dividing, .win64⟩ s s' false id ⟨0⟩ ⟨0⟩ ratio ⟨2⟩ ⟨1⟩ (.int .w8)
      8 c hs rfl rfl rfl rfl rfl rfl rfl hrun hc (hsmall c hc) hwidths hrange
  refine ⟨s, s', c, id, hs, hrun, hc, hsmall c hc, hwidths, hrange, insts, code, d,
    hgains, hdecode, hd, hwidth, fun h σ hseven htwo => ?_⟩
  cases hy.unique ha
  cases hx.unique hb
  have hp : number true ((h.value σ ⟨.phys .rdx, .i8⟩).setWidth 8) = 7 :=
    congrArg BitVec.toInt hseven
  have hq : number true ((h.value σ ⟨.phys .rcx, .i8⟩).setWidth 8) = -2 :=
    congrArg BitVec.toInt htwo
  exact hmeaning h σ 7 (-2) hp hq (by decide) ⟨-3, rfl⟩

end InstSelect.Lowering
