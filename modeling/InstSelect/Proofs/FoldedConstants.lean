import InstSelect.Proofs.ElementAddresses
import InstSelect.Proofs.Quotients

/-!
# Constants and registers

A constant byte is widened, and a constant index scaled, while code is selected; a
register is extended and scaled by the code. The two ways do not agree for all constants.
The code extends the low bits that the register holds, so it sees a number of the type,
while selection takes the whole word of a constant as it is, and masks it in one place
only: where an unsigned byte is widened.
-/

namespace InstSelect.Lowering

open IR (Ty ValueId)
open Machine (Operand OperandId Host Cpu Origin Represents number widened)

/--
Immediates and registers. Widening a constant of a signed byte gives what the code gives
for a register with the byte of the constant just when the low half of the constant is a
number of a byte, and always for an unsigned byte. A step by a constant goes as far as the
code goes for a register with the low bits of the constant just when what the extension of
these bits lacks of the constant vanishes in the product. It does for all numbers of the
type.
-/
theorem foldedConstants_agree_iff {env : Env} :
    (∀ {src id : OperandId} {signed : Bool} {o : Operand} {s s' : State} {c : Current},
      Runs (widen src .i32 signed) env s id s' → s'.current = some c →
        c.machine.operands.size ≤ 2 ^ 32 →
      s'.Holds src o → o.width = 8 →
      (∀ n, o.form = .imm n → ∃ k : Int64, s'.Holds id ⟨.imm k, .i32⟩ ∧
        (k.toBitVec.setWidth 32 = widened signed 32 (n.toBitVec.setWidth 8) ↔
          (signed = true → Represents true 8 (n.toBitVec.setWidth 32).toInt))) ∧
      (o.imm? = none → ∃ insts code r, Gains s s' insts ∧
        c.machine.decode insts = some code ∧
        s'.Holds id ⟨.virt r, .i32⟩ ∧
          ∀ (h : Host) (σ : Cpu), ∃ τ, h.run code σ = some (.falls τ) ∧
          (τ.virt r).setWidth 32 = widened signed 32 ((h.read σ o).setWidth 8))) ∧
    (∀ {gep i j : ValueId} {element ty : Ty} {kind : IR.ValueKind} {n : Int64} {w : Nat}
      {a p q : Partial}
      {s s₁ s₂ : State}, env.module.value i = .ok ⟨ty, .constant (.int n)⟩ →
        env.module.value j = .ok ⟨ty, kind⟩ →
      (∀ k, kind ≠ .constant k) → ty.width? = some w →
      Runs (stepElement gep a element i) env s p s₁ →
        Runs (stepElement gep a element j) env s q s₂ →
      ∃ size : UInt64, element.size = .ok size ∧
        Walks env [i] (fun _ _ => some (n.toBitVec * size.toBitVec)) s a s₁ p ∧
        Walks env [j] (elementDistance env.module j size) s a s₂ q ∧
        ∀ (place : ValueId → Option Operand) (O : Origin) (o : Operand),
          place j = some o →
          (O.host.value O.cpu o).setWidth w = n.toBitVec.setWidth w →
          ∃ d, elementDistance env.module j size place O = some d ∧
            (d = n.toBitVec * size.toBitVec ↔
              (n.toBitVec - widened ty.isSigned 64 (n.toBitVec.setWidth w)) *
                size.toBitVec = 0) ∧
            (Represents ty.isSigned w (number ty.isSigned n.toBitVec) →
              d = n.toBitVec * size.toBitVec)) := by
  constructor
  · intro src id signed o s s' c h hc hsmall ho hw
    obtain ⟨code, hpath, hcode⟩ := widen_code h
    obtain ⟨o', ho', hcases⟩ := hcode _ (within_arena hc hsmall)
    cases (ho.get? (within_arena hc hsmall)).symm.trans ho'
    obtain ⟨insts, hgains, hdecodes⟩ := hpath.gains hc
    obtain ⟨k, hk, hid, -⟩ | ⟨r, -, hid, rfl, -, hnone⟩ := hcases
    · refine ⟨fun n hn => ?_, fun hnone => ?_⟩
      · cases hk.symm.trans hn
        exact ⟨_, holds_of_arena hc hid, Machine.setWidth_widenImm_iff hw⟩
      · cases hnone.symm.trans (imm?_eq_some.mpr hk)
    · refine ⟨fun n hn => ?_,
        fun _ => ⟨insts, _, r, hgains, Machine.Function.decode_eq_some.mpr hdecodes,
          holds_of_arena hc hid, fun h σ => ?_⟩⟩
      · cases hnone.symm.trans (imm?_eq_some.mpr hn)
      · obtain ⟨τ, hstep, hvalue⟩ := Machine.step_wideningOp hw h σ
        exact ⟨τ, Host.run_singleton.trans hstep, hvalue⟩
  · intro gep i j element ty kind n w a p q s s₁ s₂ hi hj hkind hw hconstant hvariable
    obtain ⟨size, hsize, hwalks⟩ := stepElement_walks hconstant
    obtain ⟨size', hsize', hwalks'⟩ := stepElement_walks hvariable
    cases hsize.symm.trans hsize'
    obtain ⟨st, -, -, rfl⟩ := storageOf_of_width hw
    refine ⟨size, hsize, hwalks.imp fun place O d hd => ?_, hwalks',
      fun place O o ho hlow => ?_⟩
    · have hint : env.module.constantInt i = .ok (some n) := by
        rw [IR.Module.constantInt, hi]
        rfl
      rw [← hd, elementDistance, indexWord?_of_constantInt hint]
      rfl
    · refine ⟨widened ty.isSigned 64 (n.toBitVec.setWidth st.width) * size.toBitVec, ?_,
        ?_, fun hn => ?_⟩
      · rw [elementDistance, indexWord?_of_variable hj hkind ho hw, hlow]
        rfl
      · constructor <;> intro h <;> grind
      · rw [(Machine.widened_setWidth_iff st.width_le).mpr hn]

/-! ## Bytes out of range -/

/--
`f(p, j)`, with constants that no byte holds: 200 is no signed byte, and 511 no unsigned
one.
-/
def outsized : Env where
  abi := .win64
  module :=
    { name := "m"
      values := #[⟨.ptr (.function [.ptr (.int .w32), .uint .w8] .void false),
        .function ⟨0⟩⟩,
        ⟨.ptr (.int .w32), .argument ⟨0⟩ 0⟩, ⟨.uint .w8, .argument ⟨0⟩ 1⟩,
        ⟨.void, .block ⟨0⟩⟩,
        ⟨.int .w8, .constant (.int 200)⟩, ⟨.uint .w8, .constant (.int 511)⟩]
      insts := #[]
      blocks := #[⟨⟨0⟩, none, [], ⟨3⟩⟩]
      functions :=
        #[⟨"f", ⟨[.ptr (.int .w32), .uint .w8], .void, false⟩, [⟨1⟩, ⟨2⟩], [⟨0⟩],
          false, ⟨0⟩⟩]
      globals := #[] }

/-- An id stands for an operand, and ids tell operands apart. -/
def State.shows (s : State) (id : OperandId) (o : Operand) : Bool :=
  match s.current with
  | some c =>
    c.machine.operands.size ≤ 2 ^ 32 && c.machine.operands[id.index.toNat]? = some o
  | none => false

theorem State.exists_of_shows {s : State} {id : OperandId} {o : Operand}
    (h : s.shows id o = true) :
    ∃ c, s.current = some c ∧ c.machine.operands.size ≤ 2 ^ 32 ∧ s.Holds id o := by
  unfold State.shows at h
  split at h
  · next c hc =>
    simp only [Bool.and_eq_true, decide_eq_true_eq] at h
    exact ⟨c, hc, h.1, c, hc, h.2⟩
  · cases h

/-- The unsigned byte 511 is widened as the register is, but steps by it lead farther. -/
theorem outsized_agrees :
    ∃ s, Reached outsized ⟨0⟩ s ∧
      (∃ x k t t' n, Runs (widen x .i32 false) outsized t k t' ∧
        t'.Holds x ⟨.imm 511, .i8⟩ ∧
        t'.Holds k ⟨.imm n, .i32⟩ ∧ n.toBitVec.setWidth 32 = 255) ∧
      ∃ p q s₁ s₂, Runs (stepElement ⟨6⟩ ⟨⟨0⟩, 0⟩ (.int .w32) ⟨5⟩) outsized s p s₁ ∧
        Runs (stepElement ⟨6⟩ ⟨⟨0⟩, 0⟩ (.int .w32) ⟨2⟩) outsized s q s₂ ∧
        Walks outsized [⟨5⟩] (fun _ _ => some 2044) s ⟨⟨0⟩, 0⟩ s₁ p ∧
        Walks outsized [⟨2⟩] (elementDistance outsized.module ⟨2⟩ 4) s ⟨⟨0⟩, 0⟩ s₂ q ∧
        ∀ place O o, place ⟨2⟩ = some o → (O.host.value O.cpu o).setWidth 8 = 255 →
          ∃ d, elementDistance outsized.module ⟨2⟩ 4 place O = some d ∧ d ≠ 2044 := by
  obtain ⟨s, hs, h⟩ := reached_of_enters
    (show enters outsized ⟨0⟩ ⟨0⟩ (fun s =>
      (leaves (resolve ⟨5⟩) outsized s fun x s =>
        leaves (widen x .i32 false) outsized s fun _ s =>
        s.shows x ⟨.imm 511, .i8⟩) &&
      (leaves (stepElement ⟨6⟩ ⟨⟨0⟩, 0⟩ (.int .w32) ⟨5⟩) outsized s fun _ _ => true) &&
      leaves (stepElement ⟨6⟩ ⟨⟨0⟩, 0⟩ (.int .w32) ⟨2⟩) outsized s fun _ _ => true) =
        true by decide +kernel)
  simp only [Bool.and_eq_true] at h
  obtain ⟨⟨hwiden, hfirst⟩, hsecond⟩ := h
  obtain ⟨x, t, -, hwiden⟩ := runs_of_leaves hwiden
  obtain ⟨k, t', hwiden, hx⟩ := runs_of_leaves hwiden
  obtain ⟨p, s₁, hfirst, -⟩ := runs_of_leaves hfirst
  obtain ⟨q, s₂, hsecond, -⟩ := runs_of_leaves hsecond
  obtain ⟨c, hc, hsmall, hx⟩ := State.exists_of_shows hx
  obtain ⟨widens, steps⟩ := @foldedConstants_agree_iff outsized
  obtain ⟨n, hn, hagree⟩ := (widens hwiden hc hsmall hx rfl).1 511 rfl
  obtain ⟨size, hsize, hwalk, hwalk', hdistance⟩ :=
    steps rfl rfl (fun _ h => by cases h) rfl hfirst hsecond
  cases hsize
  refine ⟨s, hs, ⟨x, k, t, t', n, hwiden, hx, hn, hagree.mpr fun h => by cases h⟩, p, q,
    s₁, s₂, hfirst, hsecond, hwalk, hwalk', fun place O o ho hlow => ?_⟩
  obtain ⟨d, hd, hiff, -⟩ := hdistance place O o ho hlow
  exact ⟨d, hd, fun h => absurd (hiff.mp h) (by decide)⟩

/-- The signed byte 200 is widened to 200, where extending its byte gives -56. -/
theorem outsized_widens :
    ∃ x k s s', Runs (widen x .i32 true) outsized s k s' ∧ s'.Holds x ⟨.imm 200, .i8⟩ ∧
      s'.Holds k ⟨.imm 200, .i32⟩ ∧
      (200 : Int64).toBitVec.setWidth 32 ≠
        widened true 32 ((200 : Int64).toBitVec.setWidth 8) := by
  obtain ⟨s, -, h⟩ := reached_of_enters
    (show enters outsized ⟨0⟩ ⟨0⟩ (fun s =>
      leaves (resolve ⟨4⟩) outsized s fun x s =>
        leaves (widen x .i32 true) outsized s fun k s =>
        s.shows x ⟨.imm 200, .i8⟩ && s.shows k ⟨.imm 200, .i32⟩) = true by decide +kernel)
  obtain ⟨x, t, -, h⟩ := runs_of_leaves h
  obtain ⟨k, t', hrun, h⟩ := runs_of_leaves h
  rw [Bool.and_eq_true] at h
  obtain ⟨-, -, -, hx⟩ := State.exists_of_shows h.1
  obtain ⟨-, -, -, hk⟩ := State.exists_of_shows h.2
  exact ⟨x, k, t, t', hrun, hx, hk, by decide⟩

end InstSelect.Lowering
