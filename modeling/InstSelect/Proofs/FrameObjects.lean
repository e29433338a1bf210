import InstSelect.Lowering.Memory
import InstSelect.Proofs.ElementarySteps
import InstSelect.Proofs.Layouts

/-!
# Sizes of frame objects

An `alloca` multiplies the lengths of nested arrays from the outside in, up to an element
type that is no array, and takes the product times the size of that type; the layout of
the allocated type multiplies from the inside out. Both saturate at every step. A
saturating product is the exact one, cut off at the largest word, whatever the order of
its factors and even if one of them is 0, so the two agree.
-/

namespace InstSelect.Word

/-- Saturating products do not notice that either factor was cut off. -/
theorem satMul_clamps (x y : Nat) : satMul (clamp x) (clamp y) = clamp (x * y) := by
  rcases Nat.lt_or_ge y UInt64.size with hy | hy
  · rw [satMul_clamp, toNat_clamp_of_lt hy]
  · apply UInt64.toNat_inj.mp
    rw [satMul_clamp, toNat_clamp, toNat_clamp, toNat_clamp,
      Nat.min_eq_right (Nat.le_of_lt (Nat.sub_one_lt_of_le (by decide) hy))]
    rcases Nat.eq_zero_or_pos x with rfl | hx
    · rw [Nat.zero_mul, Nat.zero_mul]
    · have hlarge := Nat.le_mul_of_pos_left y hx
      have hlargest := Nat.le_mul_of_pos_left (UInt64.size - 1) hx
      omega

end InstSelect.Word

namespace InstSelect.Lowering

open IR (Inst Ty)

variable {env : Env} {s : State} {c : Current} {i : Inst} {k : Int64} {allocated : Ty}

/-- What a number of objects takes up is what their elements take up. -/
theorem flattenArray_clamp : ∀ (ty : Ty) (n : Nat), ∃ element m,
    flattenArray ty (Word.clamp n) = (element, Word.clamp m) ∧
      element.rounds = ty.rounds ∧
      element.span.align = ty.span.align ∧ element.span.size * m = ty.span.size * n
  | .array element length, n => by
      obtain ⟨inner, m, hflat, hrounds, halign, hsize⟩ :=
        flattenArray_clamp element (n * length.toNat)
      refine ⟨inner, m,
        by rw [flattenArray, Word.satMul_clamp, hflat], hrounds, halign, ?_⟩
      rw [hsize, Nat.mul_comm n, ← Nat.mul_assoc]
      rfl
  | .void, n | .type, n | .bool, n | .int _, n | .uint _, n | .f32, n | .f64, n
  | .ptr _, n
  | .function _ _ _, n | .struct _ _ _, n => ⟨_, n, rfl, rfl, rfl, rfl⟩

/-- The number of objects is read off the operands. -/
theorem runs_allocaCount
    (hcount : i.operands = [] ∧ k = 1 ∨
      ∃ v, i.operands = [v] ∧ env.module.constantInt v = .ok (some k)) :
    Runs (allocaCount i) env s k s := by
  unfold allocaCount
  rcases hcount with ⟨hops, rfl⟩ | ⟨v, hops, hv⟩
  · rw [hops]
    exact runs_pure.mpr ⟨rfl, rfl⟩
  · rw [hops]
    exact runs_bind.mpr ⟨_, s, runs_sourceModule.mpr ⟨rfl, rfl⟩,
      runs_bind.mpr ⟨_, s, runs_check.mpr ⟨hv, rfl⟩, runs_pure.mpr ⟨rfl, rfl⟩⟩⟩

/--
An `alloca` of a type that has a layout adds one frame slot. Its size is the size of the
type, multiplied by the number of objects: the exact number of bytes, or the largest word.
Its alignment is that of the type.
-/
theorem lowerAlloca_reserves (hty : i.ty = .ptr allocated)
    (hlayout : allocated.rounds = true)
    (hcount : i.operands = [] ∧ k = 1 ∨
      ∃ v, i.operands = [v] ∧ env.module.constantInt v = .ok (some k)) (hk : 0 ≤ k)
    (hc : s.current = some c) (hopen : c.machine.isSealed = false)
    (hgrant : env.GrantsOperand c.machine)
    (hroom : c.machine.nextSlot.toNat + 1 < 2 ^ 32) :
    ∃ size align, allocated.size = .ok size ∧ allocated.align = .ok align ∧
      Runs (lowerAlloca i) env s c.machine.nextId (s.withMachine c
        (c.machine.extend (.slot ⟨c.machine.nextSlot⟩ (Word.satMul size k.toUInt64) align)
          .ptr)) ∧
      (Word.satMul size k.toUInt64).toNat =
      min (2 ^ 64 - 1) (allocated.span.size * k.toInt.toNat) ∧
      align.toNat = allocated.span.align := by
  obtain ⟨element, m, hflat, hrounds, halign, hsize⟩ := flattenArray_clamp allocated 1
  rw [Nat.mul_one] at hsize
  have hextent : element.extent = .ok element.span.clamped := by
    rw [Ty.extent_eq, hrounds, if_pos hlayout]
  -- Elements and lengths multiply to the size of the allocated type.
  have hproduct : Word.satMul element.span.clamped.size (Word.clamp m) =
      Word.clamp allocated.span.size := by
    rw [← hsize]
    exact Word.satMul_clamps _ _
  have hcountNat : k.toUInt64.toNat = k.toInt.toNat := Int64.toNat_toUInt64_of_le hk
  refine ⟨Word.clamp allocated.span.size, UInt32.ofNat allocated.span.align,
    by rw [Ty.size_eq, if_pos hlayout],
    by rw [Ty.align_eq, if_pos hlayout], ?_, ?_,
    IR.toNat_ofNat_align (Ty.isAlignment_span allocated)⟩
  · unfold lowerAlloca
    rw [show i.ty.pointee? = some allocated by rw [hty]; rfl]
    refine runs_bind.mpr ⟨k, s, runs_allocaCount hcount, ?_⟩
    rw [reserveObjects, show (1 : UInt64) = Word.clamp 1 from rfl, hflat]
    refine runs_bind.mpr
      ⟨(), s, runs_check.mpr ⟨require_eq_ok.mpr (decide_eq_true hk), rfl⟩, ?_⟩
    refine runs_bind.mpr ⟨_, s, runs_checkWord.mpr ⟨hextent, rfl⟩, ?_⟩
    rw [hproduct, ← halign]
    exact runs_newSlot.mpr ⟨c, hc, hopen, hgrant, hroom, rfl, rfl⟩
  · rw [Word.satMul_clamp, Word.toNat_clamp, hcountNat, Nat.min_comm]
    rfl

/-- Rows of entries of 16 bytes, more bytes than a word can count. -/
def grid : Ty :=
  .array (.array (.struct none [.int .w16, .ptr (.int .w8)] false) 1073741824)
    1099511627776

/-- Three grids, and the module of their number. -/
def grids : Inst := ⟨.alloca, [⟨0⟩], .ptr grid, ⟨0⟩, ⟨1⟩⟩

def gridModule : IR.Module where
  name := "m"
  values := #[⟨.uint .w32, .constant (.int 3)⟩, ⟨.ptr grid, .instruction ⟨0⟩⟩]
  insts := #[grids]
  blocks := #[]
  functions := #[]
  globals := #[]

/-- A function with nothing in it. -/
def emptyFrame : Current := ⟨⟨0⟩, .new "f" .void [] ⟨false, false⟩, none⟩

/--
Three grids of 2⁷⁴ bytes get a slot of the largest size, at the alignment of the pointers
in them.
-/
theorem grids_saturate : grid.rounds = true ∧ grid.span.size = 2 ^ 74 ∧
    gridModule.constantInt ⟨0⟩ = .ok (some 3) ∧
    ∃ s', Runs (lowerAlloca grids) ⟨gridModule, .win64⟩
      { State.initial "m" with current := some emptyFrame } ⟨0⟩ s' ∧
      s'.current = some { emptyFrame with
        machine := emptyFrame.machine.extend (.slot ⟨0⟩ 0xffffffffffffffff 8) .ptr } := by
  have hrounds : grid.rounds = true := by decide
  obtain ⟨size, align, hsize, halign, hrun, -⟩ :=
    @lowerAlloca_reserves ⟨gridModule, .win64⟩
    { State.initial "m" with current := some emptyFrame } emptyFrame grids 3 grid
    rfl hrounds (.inr ⟨⟨0⟩, rfl, rfl⟩) (by decide) rfl rfl rfl (by decide)
  obtain rfl : size = 0xffffffffffffffff := Except.ok.inj (hsize.symm.trans (by decide))
  obtain rfl : align = 8 := Except.ok.inj (halign.symm.trans (by decide))
  exact ⟨hrounds, by decide, rfl, _, hrun, rfl⟩

end InstSelect.Lowering
