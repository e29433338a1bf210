import Mathlib.Algebra.Order.Ring.Nat
import Mathlib.Data.List.Forall2
import InstSelect.Abi
import InstSelect.Machine.Function

/-!
# Running machine code

What the selected instructions do. A `Cpu` holds the registers, virtual ones included, the
memory, the status flags and the number of calls made so far. Registers are 64 bits wide;
an operation works at the width of its first operand, and a result narrower than 32 bits
leaves the rest of its register alone while one of 32 bits clears it.

All that code does not determine is collected in a `Host`: where frame slots and symbols
lie, what a callee does, and the flags left behind by arithmetic, which selected code
never reads. A callee may do anything to registers and memory, except that it gives back
the frame base and keeps off the shadow slots of its caller's own arguments; virtual
registers are no part of the hardware, and outlive calls. Statements hold for every host.
-/

namespace InstSelect.Machine

variable {w n k : Nat} {a : BitVec 64}

/-! ## Words at a width -/

/-- Width of a storage class in bits. -/
def Storage.width (s : Storage) : Nat := s.bits.toNat

theorem Storage.width_eq (s : Storage) : s.width = 8 * s.size.toNat := by
  cases s <;> rfl

theorem Storage.width_le (s : Storage) : s.width ≤ 64 := by
  cases s <;> decide

def Operand.width (o : Operand) : Nat := o.storage.width

/-- The low `w` bits of a word, the rest cleared. -/
def zeroExtended (w : Nat) (x : BitVec 64) : BitVec 64 := (x.setWidth w).setWidth 64

/-- The low `w` bits of a word, the rest copies of the topmost of them. -/
def signExtended (w : Nat) (x : BitVec 64) : BitVec 64 := (x.setWidth w).signExtend 64

/-- A register's contents after its low `w` bits were written. -/
def merge (w : Nat) (old new : BitVec 64) : BitVec 64 :=
  if w = 32 then zeroExtended 32 new else (old >>> w) <<< w ||| zeroExtended w new

@[simp]
theorem setWidth_zeroExtended (hw : w ≤ 64) (x : BitVec 64) :
    (zeroExtended w x).setWidth w = x.setWidth w := by
  ext i hi
  have hlt : i < 64 := by omega
  simp [zeroExtended, hi, hlt]

/-- A register holds what was written to it, at the width of the write. -/
theorem setWidth_merge (hw : w ≤ 64) (old new : BitVec 64) :
    (merge w old new).setWidth w = new.setWidth w := by
  unfold merge
  by_cases h32 : w = 32
  · subst h32
    rw [if_pos rfl, setWidth_zeroExtended hw]
  · rw [if_neg h32]
    ext i hi
    have hlt : i < 64 := by omega
    simp [zeroExtended, hi, hlt]

/-! ## Memory -/

/-- Memory: a byte at every address. -/
abbrev Memory := BitVec 64 → BitVec 8

namespace Memory

/-- The `n` bytes at an address, least significant first. -/
def load (m : Memory) (a : BitVec 64) : Nat → BitVec 64
  | 0 => 0
  | n + 1 => m.load a n ||| ((m (a + BitVec.ofNat 64 n)).setWidth 64 <<< (8 * n))

/-- Memory after the low `n` bytes of a word were stored at an address. -/
def store (m : Memory) (a : BitVec 64) (n : Nat) (x : BitVec 64) : Memory := fun b =>
  if (b - a).toNat < n then (x >>> (8 * (b - a).toNat)).setWidth 8 else m b

theorem getLsbD_load (m : Memory) (a : BitVec 64) (hn : n ≤ 8) (i : Nat) :
    (m.load a n).getLsbD i =
      (decide (i < 8 * n) && (m (a + BitVec.ofNat 64 (i / 8))).getLsbD (i % 8)) := by
  induction n with
  | zero => simp [load]
  | succ n ih =>
    rw [load, BitVec.getLsbD_or, ih (by omega), BitVec.getLsbD_shiftLeft,
      BitVec.getLsbD_setWidth]
    by_cases hlow : i < 8 * n
    · have : i < 8 * (n + 1) := by omega
      simp [hlow, this]
    · by_cases hhigh : i < 8 * (n + 1)
      · have hdiv : i / 8 = n := by omega
        have hmod : i % 8 = i - 8 * n := by omega
        have hlt : i < 64 := by omega
        have hlt' : i - 8 * n < 64 := by omega
        simp [hlow, hhigh, hdiv, hmod, hlt, hlt']
      · have : 8 ≤ i - 8 * n := by omega
        simp [hlow, hhigh, BitVec.getLsbD_of_ge _ _ this]

private theorem toNat_ofNat_small (hk : k < 8) : (BitVec.ofNat 64 k).toNat = k := by
  rw [BitVec.toNat_ofNat]
  omega

/-- What was stored is read back. -/
theorem load_store (m : Memory) (a : BitVec 64) (hn : n ≤ 8) (x : BitVec 64) :
    (m.store a n x).load a n = zeroExtended (8 * n) x := by
  apply BitVec.eq_of_getLsbD_eq
  intro i hi
  rw [getLsbD_load _ _ hn]
  by_cases hlow : i < 8 * n
  · have hk : (a + BitVec.ofNat 64 (i / 8) - a).toNat = i / 8 := by
      rw [BitVec.add_comm, BitVec.add_sub_cancel, toNat_ofNat_small (by omega)]
    have hbyte : i / 8 < n := by omega
    have hbit : i % 8 < 8 := by omega
    have hsum : 8 * (i / 8) + i % 8 = i := by omega
    have hread : m.store a n x (a + BitVec.ofNat 64 (i / 8)) =
        (x >>> (8 * (i / 8))).setWidth 8 := by
      simp only [store, hk, if_pos hbyte]
    simp [hread, hbit, hsum, zeroExtended, hlow, hi]
  · simp [hlow, zeroExtended]

/-- A load is not affected by a store that shares no byte with it. -/
theorem load_store_of_disjoint (m : Memory) {b : BitVec 64} (hn : n ≤ 8)
    (hdisj : ∀ j < n, k ≤ (b + BitVec.ofNat 64 j - a).toNat) (x : BitVec 64) :
    (m.store a k x).load b n = m.load b n := by
  apply BitVec.eq_of_getLsbD_eq
  intro i _
  rw [getLsbD_load _ _ hn, getLsbD_load _ _ hn]
  by_cases hlow : i < 8 * n
  · have hfar := hdisj (i / 8) (by omega)
    have hne : ¬ (b + BitVec.ofNat 64 (i / 8) - a).toNat < k := by omega
    simp only [store, if_neg hne]
  · simp [hlow]

/-- A load reads only the bytes of its range. -/
theorem load_congr {m m' : Memory}
    (h : ∀ j < n, m' (a + BitVec.ofNat 64 j) = m (a + BitVec.ofNat 64 j)) :
    m'.load a n = m.load a n := by
  induction n with
  | zero => rfl
  | succ n ih =>
    rw [load, load, ih fun j hj => h j (by omega), h n (by omega)]

end Memory

/-! ## Status flags -/

/-- The flags that condition codes read. -/
structure Status where
  zero : Bool
  sign : Bool
  carry : Bool
  overflow : Bool
deriving DecidableEq, Repr

namespace Status

/-- The flags after `cmp` at a width. -/
def ofCompare (w : Nat) (x y : BitVec 64) : Status where
  zero := x.setWidth w == y.setWidth w
  sign := (x.setWidth w - y.setWidth w).msb
  carry := (x.setWidth w).ult (y.setWidth w)
  overflow := BitVec.ssubOverflow (x.setWidth w) (y.setWidth w)

/-- The flags after `test` at a width. -/
def ofTest (w : Nat) (x y : BitVec 64) : Status where
  zero := (x &&& y).setWidth w == 0
  sign := ((x &&& y).setWidth w).msb
  carry := false
  overflow := false

end Status

/-- Whether a condition holds under flags. -/
def Cond.holds (f : Status) : Cond → Bool
  | .e => f.zero
  | .ne => !f.zero
  | .l => f.sign != f.overflow
  | .le => f.zero || f.sign != f.overflow
  | .g => !(f.zero || f.sign != f.overflow)
  | .ge => !(f.sign != f.overflow)
  | .b => f.carry
  | .be => f.carry || f.zero
  | .a => !(f.carry || f.zero)
  | .ae => !f.carry

/-! ## Values that operations compute -/

/-- The number of places that a shift at width `w` moves. -/
def shiftCount (w : Nat) (y : BitVec 64) : Nat :=
  (y.setWidth 8).toNat % (if w = 64 then 64 else 32)

/--
What an operation of two operands writes to the first, given the widths and values of
both; `none` for operations that do not compute a value from two.
-/
def Op.compute (op : Op) (w v : Nat) (x y : BitVec 64) : Option (BitVec 64) :=
  match op with
  | .mov => some y
  | .movzx => some (zeroExtended v y)
  | .movsx => some (signExtended v y)
  | .add => some (x + y)
  | .sub => some (x - y)
  | .imul => some (x * y)
  | .and => some (x &&& y)
  | .or => some (x ||| y)
  | .xor => some (x ^^^ y)
  | .shl => some (x <<< shiftCount w y)
  | .shr => some (zeroExtended w x >>> shiftCount w y)
  | .sar => some ((signExtended w x).sshiftRight (shiftCount w y))
  | _ => none

/-- Moves and address computations leave the flags alone. -/
def Op.keepsStatus : Op → Bool
  | .mov | .movzx | .movsx => true
  | _ => false

/--
Quotient and remainder of an unsigned double word; `none` if the quotient does not fit.
-/
def divideUnsigned (w : Nat) (high low divisor : BitVec 64) :
    Option (BitVec 64 × BitVec 64) :=
  let n := (high.setWidth w).toNat * 2 ^ w + (low.setWidth w).toNat
  let d := (divisor.setWidth w).toNat
  if d = 0 ∨ 2 ^ w ≤ n / d then none
  else some (BitVec.ofNat 64 (n / d), BitVec.ofNat 64 (n % d))

/--
Quotient and remainder of a signed double word, rounded to zero; `none` if out of range.
-/
def divideSigned (w : Nat) (high low divisor : BitVec 64) :
    Option (BitVec 64 × BitVec 64) :=
  let n := (high.setWidth w).toInt * 2 ^ w + (low.setWidth w).toNat
  let d := (divisor.setWidth w).toInt
  if d = 0 ∨ n.tdiv d < -2 ^ (w - 1) ∨ 2 ^ (w - 1) ≤ n.tdiv d then none
  else some (BitVec.ofInt 64 (n.tdiv d), BitVec.ofInt 64 (n.tmod d))

/-! ## Machine states -/

/-- What the code of one function works on. -/
structure Cpu where
  phys : PhysReg → BitVec 64
  virt : VReg → BitVec 64
  memory : Memory
  status : Status
  /-- Number of calls made so far, so that equal calls may have different outcomes. -/
  calls : Nat

/-- What code does not determine. -/
structure Host where
  abi : Abi
  /-- Where frame slots lie. -/
  slot : SlotId → BitVec 64
  /-- Where symbols lie. -/
  symbol : String → BitVec 64
  /-- The state in which a callee at an address returns. -/
  callee : BitVec 64 → Cpu → Cpu
  /-- The flags after arithmetic. -/
  status : Op → Cpu → Status

namespace Cpu

/-- Contents of a register. -/
def reg (σ : Cpu) : Reg → BitVec 64
  | .phys r => σ.phys r
  | .virt r => σ.virt r

/-- The address that a memory reference denotes. -/
def address (σ : Cpu) (a : Address) : BitVec 64 :=
  let index := match a.index with
    | some r => σ.reg r * a.scale.toBitVec.setWidth 64
    | none => 0
  σ.reg a.base + index + a.disp.toBitVec.signExtend 64

/-- The state after a physical register was written at a width. -/
def setPhys (σ : Cpu) (w : Nat) (r : PhysReg) (x : BitVec 64) : Cpu :=
  { σ with phys := fun q => if q = r then merge w (σ.phys r) x else σ.phys q }

/-- The state after a virtual register was written at a width. -/
def setVirt (σ : Cpu) (w : Nat) (r : VReg) (x : BitVec 64) : Cpu :=
  { σ with virt := fun q => if q = r then merge w (σ.virt r) x else σ.virt q }

/-- Sign-extends the accumulator into its high half. -/
def signFill (σ : Cpu) (w : Nat) : Cpu :=
  σ.setPhys w .rdx (if ((σ.phys .rax).setWidth w).msb then -1 else 0)

/-- Divides the accumulator pair; for bytes, both halves and both results are in `ax`. -/
def divide (σ : Cpu)
    (op : Nat → BitVec 64 → BitVec 64 → BitVec 64 → Option (BitVec 64 × BitVec 64))
    (w : Nat) (divisor : BitVec 64) : Option Cpu :=
  if w = 8 then
    (op 8 (σ.phys .rax >>> 8) (σ.phys .rax) divisor).map fun (q, r) =>
      σ.setPhys 16 .rax (merge 8 (r <<< 8) q)
  else
    (op w (σ.phys .rdx) (σ.phys .rax) divisor).map fun (q, r) =>
      (σ.setPhys w .rax q).setPhys w .rdx r

end Cpu

/-- Whether an address lies in the shadow slots above a frame base. -/
def InShadow (abi : Abi) (base a : BitVec 64) : Prop :=
  (a - (base + abi.shadowOffset.toBitVec.signExtend 64)).toNat <
    abi.shadowSlotSize.toInt.toNat * abi.argRegisters.length

instance (abi : Abi) (base a : BitVec 64) : Decidable (InShadow abi base a) :=
  inferInstanceAs (Decidable (_ < _))

namespace Host

variable (h : Host) (σ : Cpu)

/-- Where an operand that names memory lies. -/
def addressOf (o : Operand) : BitVec 64 :=
  match o.form with
  | .mem a => σ.address a
  | .slot id _ _ => h.slot id
  | .symbol name => h.symbol name
  | _ => 0

/-- What an operand holds; only the bits of its width count. -/
def read (o : Operand) : BitVec 64 :=
  match o.form with
  | .phys r => σ.phys r
  | .virt r => σ.virt r
  | .imm n => n.toBitVec
  | .mem _ | .slot _ _ _ | .symbol _ =>
    σ.memory.load (h.addressOf σ o) o.storage.size.toNat
  | .label _ => 0

/-- The state after an operand was written at its width. -/
def write (o : Operand) (x : BitVec 64) : Cpu :=
  match o.form with
  | .phys r => σ.setPhys o.width r x
  | .virt r => σ.setVirt o.width r x
  | .mem _ | .slot _ _ _ | .symbol _ =>
    { σ with memory := σ.memory.store (h.addressOf σ o) o.storage.size.toNat x }
  | .imm _ | .label _ => σ

/-- The address that a call goes to. -/
def target (o : Operand) : BitVec 64 :=
  match o.form with
  | .symbol name => h.symbol name
  | _ => h.read σ o

/-- The state in which a call returns. -/
def afterCall (o : Operand) : Cpu :=
  let τ := h.callee (h.target σ o) σ
  { phys := fun r => if r = h.abi.frameBase then σ.phys r else τ.phys r
    virt := σ.virt
    memory := fun a => if InShadow h.abi (σ.phys h.abi.frameBase) a then σ.memory
      a else τ.memory a
    status := τ.status
    calls := σ.calls + 1 }

end Host

/-- How a piece of code is left, and the state in which it is. -/
inductive Exit
  | falls (σ : Cpu)
  | jumps (block : BlockId) (σ : Cpu)
  | returns (σ : Cpu)

namespace Exit

/-- The state in which code is left. -/
def cpu : Exit → Cpu
  | falls σ | jumps _ σ | returns σ => σ

end Exit

/-- An instruction with its operands looked up. -/
structure Code where
  op : Op
  operands : List Operand
deriving DecidableEq, Repr

variable {c : Code} {xs ys : List Code}

def Operand.label? (o : Operand) : Option BlockId :=
  match o.form with
  | .label b => some b
  | _ => none

namespace Host

/-- Operations without operands. -/
def nullary (σ : Cpu) : Op → Option Exit
  | .cwd => some (.falls (σ.signFill 16))
  | .cdq => some (.falls (σ.signFill 32))
  | .cqo => some (.falls (σ.signFill 64))
  | .ret => some (.returns σ)
  | _ => none

def unary (h : Host) (σ : Cpu) (x : Operand) : Op → Option Exit
  | .setcc cond => some (.falls (h.write σ x (if cond.holds σ.status then 1 else 0)))
  | .div => (σ.divide divideUnsigned x.width (h.read σ x)).map fun τ =>
    .falls { τ with status := h.status .div σ }
  | .idiv => (σ.divide divideSigned x.width (h.read σ x)).map fun τ =>
    .falls { τ with status := h.status .idiv σ }
  | .call => some (.falls (h.afterCall σ x))
  | .jmp => x.label?.map fun b => .jumps b σ
  | .jcc cond =>
    x.label?.map fun b => if cond.holds σ.status then .jumps b σ else .falls σ
  | _ => none

def binary (h : Host) (σ : Cpu) (x y : Operand) : Op → Option Exit
  | .lea => some (.falls (h.write σ x (h.addressOf σ y)))
  | .cmp =>
    some (.falls { σ with status := .ofCompare x.width (h.read σ x) (h.read σ y) })
  | .test =>
    some (.falls { σ with status := .ofTest x.width (h.read σ x) (h.read σ y) })
  | op => (op.compute x.width y.width (h.read σ x) (h.read σ y)).map fun v =>
    let τ := h.write σ x v
    .falls (if op.keepsStatus then τ else { τ with status := h.status op σ })

/-- Runs one instruction; `none` if it faults or is no instruction of the machine. -/
def step (h : Host) (σ : Cpu) (c : Code) : Option Exit :=
  match c.operands with
  | [] => nullary σ c.op
  | [x] => h.unary σ x c.op
  | [x, y] => h.binary σ x y c.op
  | _ => none

/-- Runs code until it is left. -/
def run (h : Host) : List Code → Cpu → Option Exit
  | [], σ => some (.falls σ)
  | c :: rest, σ =>
    match h.step σ c with
    | some (.falls τ) => h.run rest τ
    | exit => exit

end Host

/-! ## Running code in parts -/

namespace Host

variable {h : Host} {σ τ : Cpu}

@[simp]
theorem run_nil : h.run [] σ = some (.falls σ) := rfl

theorem run_cons_of_falls {rest : List Code} (hc : h.step σ c = some (.falls τ)) :
    h.run (c :: rest) σ = h.run rest τ := by
  rw [run, hc]

/-- Code that falls through is followed by what comes after it. -/
theorem run_append_of_falls (hx : h.run xs σ = some (.falls τ)) :
    h.run (xs ++ ys) σ = h.run ys τ := by
  induction xs generalizing σ with
  | nil =>
    cases hx
    rfl
  | cons c rest ih =>
    rw [List.cons_append, run]
    rw [run] at hx
    split at hx
    · exact ih hx
    · next e hne =>
      rw [hx] at hne
      exact absurd rfl (hne τ)

/-- A run of two parts runs the first, and the second unless the first leaves. -/
theorem run_append {e : Exit} (hrun : h.run (xs ++ ys) σ = some e) :
    (∃ ρ, h.run xs σ = some (.falls ρ) ∧ h.run ys ρ = some e) ∨ h.run xs σ = some e := by
  induction xs generalizing σ with
  | nil => exact Or.inl ⟨σ, rfl, hrun⟩
  | cons c rest ih =>
    rw [List.cons_append, run] at hrun
    rw [run]
    split at hrun
    · next ρ hρ => exact ih hrun
    · exact Or.inr hrun

theorem run_singleton : h.run [c] σ = h.step σ c := by
  rw [run]
  split
  · next τ hτ => rw [hτ, run_nil]
  · rfl

/-! ## Progress -/

end Host

/-- Operations that can fault. -/
def Op.divides : Op → Bool
  | .div | .idiv => true
  | _ => false

namespace Host

variable {h : Host} {σ τ : Cpu}

theorem label?_isSome {o : Operand} (ho : o.shape = .label) : o.label?.isSome := by
  obtain ⟨form, st⟩ := o
  cases form <;> simp_all [Operand.shape, Operand.label?]

/-- Apart from divisions, whatever the table of operand shapes accepts can be run. -/
theorem step_isSome (ha : c.op.accepts c.operands = true) (hdiv : c.op.divides = false) :
    (h.step σ c).isSome := by
  obtain ⟨op, os⟩ := c
  match os with
  | [] => cases op <;> simp_all [Op.accepts, step, nullary]
  | [x] =>
    cases op with
    | jmp | jcc cond =>
      have := label?_isSome (o := x) (by simpa [Op.accepts] using ha)
      simpa [step, unary] using this
    | _ => simp_all [Op.accepts, step, unary, Op.divides]
  | [x, y] => cases op <;> simp_all [Op.accepts, step, binary, Op.compute]
  | _ :: _ :: _ :: _ => cases op <;> simp [Op.accepts] at ha

/-- Accepted code without divisions always runs to an exit. -/
theorem run_isSome {code : List Code} (ha : ∀ c ∈ code, c.op.accepts c.operands = true)
    (hdiv : ∀ c ∈ code, c.op.divides = false) (σ : Cpu) : (h.run code σ).isSome := by
  induction code generalizing σ with
  | nil => rfl
  | cons c rest ih =>
    have hstep : (h.step σ c).isSome :=
      step_isSome (ha c (by simp)) (hdiv c (by simp))
    obtain ⟨e, he⟩ := Option.isSome_iff_exists.mp hstep
    rw [run, he]
    cases e with
    | falls τ =>
      exact ih (fun c hc => ha c (by simp [hc])) (fun c hc => hdiv c (by simp [hc])) τ
    | jumps b τ => rfl
    | returns τ => rfl

end Host

end InstSelect.Machine
