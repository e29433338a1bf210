import Mathlib.Algebra.Order.Ring.Int
import InstSelect.Proofs.ElementAddresses
import InstSelect.Proofs.Overflow

/-!
# Folding element addresses

The steps of an element address are known before any code is selected: an offset, where
the index is a constant, or the size that the index is multiplied by. `legs` lists them.
The displacement that has been folded after each of them follows from the list alone, and
with it where the address is flushed and which sums are taken.

Two of these sums matter. An offset is added to the displacement as a signed word of 64
bits, and the sum is only then compared with 32 bits; so the walk overflows where a
displacement and an offset near the limits meet, although neither of them is out of range.
And a walk over constants is free of code as long as every sum stays within 32 bits, so
that the address is a single instruction at the end.
-/

namespace InstSelect.IR

/-- The type whose layout a step from a type asks for. -/
def Ty.stepped : Ty → Ty
  | ptr element | array element _ => element
  | ty => ty

end InstSelect.IR

namespace InstSelect.Lowering

open IR (ValueId Inst Ty)
open Machine (Operand OperandId Reg VReg Address Code Arena)

variable {offset k : Int64} {fields : List Ty} {packed : Bool} {next : Ty}
  {code : List Code} {id : OperandId} {n : Int} {o : Operand}

/-! ## Legs -/

/-- One step of a walk: a known distance, or a multiple of a size. -/
inductive Leg
  | fixed (offset : Int64)
  | indexed (size : UInt64)
deriving DecidableEq, Repr

variable {leg : Leg} {ls : List Leg}

/--
The step over elements of a type; a constant multiple of the size must be a signed word.
-/
def elementLeg? (m : IR.Module) (element : Ty) (v : ValueId) : Option Leg :=
  match element.size, m.constantInt v with
  | .ok size, .ok (some step) =>
    (Word.toI64? (step.toInt * size.toInt64.toInt)).map .fixed
  | .ok size, .ok none => some (.indexed size)
  | _, _ => none

/-- The step into a member: its entry in the table of offsets. -/
def memberLeg? (m : IR.Module) (fields : List Ty) (packed : Bool) (v : ValueId) :
    Option (Leg × Ty) :=
  match m.constantInt v, Ty.structLayout packed fields with
  | .ok (some index), .ok layout =>
    if 0 ≤ index.toInt then do
      let offset ← layout.offsets[index.toInt.toNat]?
      let field ← fields[index.toInt.toNat]?
      pure (.fixed offset.toInt64, field)
    else none
  | _, _ => none

/-- The leg that an index leads from a type, and the type that it leads to. -/
def legOf? (m : IR.Module) : Ty → ValueId → Option (Leg × Ty)
  | .struct _ fields packed, v => memberLeg? m fields packed v
  | .ptr element, v | .array element _, v => (elementLeg? m element v).map (·, element)
  | _, _ => none

/-- The legs of a walk, up to where it breaks off. -/
def legs (m : IR.Module) : Ty → List ValueId → List Leg
  | _, [] => []
  | ty, v :: rest =>
    match legOf? m ty v with
    | some (leg, next) => leg :: legs m next rest
    | none => []

/-- No layout that a walk asks for overflows. -/
def Measured (m : IR.Module) : Ty → List ValueId → Prop
  | _, [] => True
  | ty, v :: rest =>
    ty.stepped.rounds = true ∧ ∀ leg next, legOf? m ty v = some (leg, next) →
      Measured m next rest

namespace Leg

/-- The sum that a leg takes is a signed word. -/
def sumFits (disp : Int) : Leg → Bool
  | fixed offset => decide (Word.FitsI64 (disp + offset.toInt))
  | indexed _ => true

/--
The displacement after a leg. An offset that is too large for the sum is left alone in it,
after the address was flushed, or added by way of a register. Scaled indices take the
displacement along.
-/
def settle (disp : Int) : Leg → Int
  | fixed offset =>
    if Word.FitsI32 (disp + offset.toInt) then disp + offset.toInt
    else if Word.FitsI32 offset.toInt then offset.toInt
    else 0
  | indexed size => if (scaleOf? size).isSome then 0 else disp

theorem settle_fits {disp : Int} (h : Word.FitsI32 disp) (leg : Leg) :
    Word.FitsI32 (leg.settle disp) := by
  have hzero : Word.FitsI32 0 := by decide
  cases leg with
  | fixed offset =>
    rw [settle]
    split
    · assumption
    · split
      · assumption
      · exact hzero
  | indexed size =>
    rw [settle]
    split
    · exact hzero
    · exact h

end Leg

/-- All sums that a walk takes are signed words. -/
def sumsFit : Int → List Leg → Bool
  | _, [] => true
  | disp, leg :: rest => leg.sumFits disp && sumsFit (leg.settle disp) rest

theorem sumsFit_of_safe {disp : Int} (hdisp : Word.FitsI32 disp)
    (h : ∀ offset, .fixed offset ∈ ls → IR.SafeOffset offset) :
    sumsFit disp ls = true := by
  induction ls generalizing disp with
  | nil => rfl
  | cons leg rest ih =>
    have hrest :=
      ih (leg.settle_fits hdisp) fun offset hmem => h offset (List.mem_cons_of_mem _ hmem)
    have hfirst : leg.sumFits disp = true := by
      cases leg with
      | indexed => rfl
      | fixed offset =>
        obtain ⟨hlow, hhigh⟩ := hdisp
        obtain ⟨hmin, hmax⟩ := h offset List.mem_cons_self
        apply decide_eq_true
        constructor <;> omega
    rw [sumsFit, hfirst, hrest]
    rfl

/-- The first leg starts without a displacement. -/
theorem sumsFit_of_tail (h : ∀ offset, .fixed offset ∈ ls.tail → IR.SafeOffset offset) :
    sumsFit 0 ls = true := by
  have hzero : Word.FitsI32 0 := by decide
  cases ls with
  | nil => rfl
  | cons leg rest =>
    have hfirst : leg.sumFits 0 = true := by
      cases leg with
      | indexed => rfl
      | fixed offset =>
        have hlow := Int64.le_toInt offset
        have hhigh := Int64.toInt_lt offset
        apply decide_eq_true
        rw [Int.zero_add]
        constructor <;> omega
    have hrest : sumsFit (leg.settle 0) rest = true :=
      sumsFit_of_safe (leg.settle_fits hzero) h
    rw [sumsFit, hfirst, hrest]
    rfl

/-- What a leg adds to an address. -/
def takeLeg (address : Partial) (v : ValueId) : Leg → LowerM Partial
  | .fixed offset => addOffset address offset
  | .indexed size => addScaledIndex address v size

variable {env : Env} {s s' t : State} {v gep : ValueId} {indices : List ValueId}
  {ty element : Ty} {address address' : Partial} {m : IR.Module} {size : UInt64}

theorem elementLeg?_constant {step : Int64} (hsize : element.size = .ok size)
    (hk : m.constantInt v = .ok (some step))
    (hoffset : elementOffset gep step size = .ok offset) :
    elementLeg? m element v = some (.fixed offset) := by
  unfold elementOffset at hoffset
  split at hoffset
  · next hproduct =>
    cases hoffset
    simp only [elementLeg?, hsize, hk, hproduct]
    rfl
  · cases hoffset

theorem elementLeg?_variable (hsize : element.size = .ok size)
    (hk : m.constantInt v = .ok none) :
    elementLeg? m element v = some (.indexed size) := by
  simp only [elementLeg?, hsize, hk]

theorem memberLeg?_constant {index : Int64} {position : Nat} {field : Ty}
    {layout : IR.StructLayout} (hk : m.constantInt v = .ok (some index))
    (hmember : memberIndex gep fields index = .ok (position, field))
    (hlayout : Ty.structLayout packed fields = .ok layout) :
    memberLeg? m fields packed v =
      some (.fixed (layout.offsets.getD position 0).toInt64, field) := by
  unfold memberIndex at hmember
  split at hmember
  · next hnonneg =>
    split at hmember
    · next hfield =>
      cases hmember
      have hlt : index.toInt.toNat < layout.offsets.length := by
        rw [offsets_length hlayout]
        exact (List.getElem?_eq_some_iff.mp hfield).1
      simp only [memberLeg?, hk, hlayout, if_pos hnonneg, hfield,
        List.getElem?_eq_getElem hlt, List.getD_eq_getElem?_getD]
      rfl
    · cases hmember
  · cases hmember

theorem stepElement_runs
    (h : Runs (stepElement gep address element v) env s address' s') :
    ∃ leg, elementLeg? env.module element v = some leg ∧
      Runs (takeLeg address v leg) env s address' s' := by
  obtain ⟨size, hsize, ⟨step, offset, hk, hoffset, hadd⟩ | ⟨hk, hadd⟩⟩ :=
    stepElement_cases h
  · exact ⟨.fixed offset, elementLeg?_constant hsize hk hoffset, hadd⟩
  · exact ⟨.indexed size, elementLeg?_variable hsize hk, hadd⟩

theorem stepMember_runs
    (h : Runs (stepMember gep address fields packed v) env s (address', next) s') :
    ∃ leg, memberLeg? env.module fields packed v = some (leg, next) ∧
      Runs (takeLeg address v leg) env s address' s' := by
  obtain ⟨k, position, layout, hk, hmember, hlayout, hadd⟩ := stepMember_adds h
  exact ⟨_, memberLeg?_constant hk hmember hlayout, hadd⟩

/-- A step of a walk takes the leg that its index leads. -/
theorem stepInto_runs (h : Runs (stepInto gep address ty v) env s (address', next) s') :
    ∃ leg, legOf? env.module ty v = some (leg, next) ∧
      Runs (takeLeg address v leg) env s address' s' := by
  have helement : ∀ {element : Ty}, Runs (stepElement gep address element v >>=
    fun a => pure (a, element)) env s
      (address', next) s' → ∃ leg,
      (elementLeg? env.module element v).map (·, element) = some (leg, next) ∧
        Runs (takeLeg address v leg) env s address' s' := by
    intro element h
    simp only [runs_bind, runs_pure] at h
    obtain ⟨a, _, hstep, heq, rfl⟩ := h
    cases heq
    obtain ⟨leg, hleg, hrun⟩ := stepElement_runs hstep
    exact ⟨leg, by rw [hleg]; rfl, hrun⟩
  unfold stepInto at h
  split at h
  · exact stepMember_runs h
  · exact helement h
  · exact helement h
  · exact absurd (runs_check.mp h).1 violate_ne_ok

/-! ## The displacement -/

theorem fitsI32_toInt (disp : Int32) : Word.FitsI32 disp.toInt :=
  ⟨Int32.le_toInt disp, Int32.toInt_lt disp⟩

theorem toI32?_eq_none (h : Word.toI32? n = none) : ¬ Word.FitsI32 n := by
  intro hfits
  rw [Word.toI32?, if_pos hfits] at h
  cases h

theorem fitsI32_of_toI32? {disp : Int32} (h : Word.toI32? n = some disp) :
    Word.FitsI32 n := by
  rw [← toInt_of_toI32? h]
  exact fitsI32_toInt disp

/-- The sum of a displacement and an offset, where it was taken. -/
theorem fitsI64_of_addI64 {a b total : Int64} (h : Word.addI64 a b = .ok total) :
    Word.FitsI64 (a.toInt + b.toInt) := by
  rw [← addI64_eq_ok h]
  exact ⟨Int64.le_toInt total, Int64.toInt_lt total⟩

/-- The code of a walk is not empty. -/
def EmitsCode (env : Env) (s s' : State) : Prop := ∃ code, Path env s s' code ∧
    ∀ A : Arena, s'.Within A → code ≠ []

theorem EmitsCode.before (hp : Path env s t code) (h : EmitsCode env t s') :
    EmitsCode env s s' := by
  obtain ⟨code', hp', hne⟩ := h
  exact ⟨_, hp.trans hp', fun A hA => List.append_ne_nil_of_right_ne_nil _ (hne A hA)⟩

theorem EmitsCode.then (h : EmitsCode env s t) (hp : Path env t s' code) :
    EmitsCode env s s' := by
  obtain ⟨code', hp', hne⟩ := h
  exact ⟨_, hp'.trans hp,
    fun A hA => List.append_ne_nil_of_left_ne_nil (hne A (hp.within hA)) _⟩

theorem loadAddress_emits {index : Option (OperandId × UInt8)}
    (h : Runs (loadAddress address index) env s id s') : EmitsCode env s s' := by
  obtain ⟨code, q, a, hpath, -, -, -, hcode⟩ := loadAddress_code h
  refine ⟨code, hpath, fun A hA => ?_⟩
  rw [(hcode A hA).2]
  exact List.cons_ne_nil _ _

theorem addWideOffset_emits {base : OperandId}
    (h : Runs (addWideOffset base offset) env s address' s') :
    address'.disp = 0 ∧ EmitsCode env s s' := by
  simp only [addWideOffset, runs_bind, runs_pure] at h
  obtain ⟨src, s1, himm, amount, s2, hcopy, dst, s3, hload, rfl, rfl⟩ := h
  obtain ⟨code, hpath, -⟩ := copyToVReg_fetch hcopy
  exact ⟨rfl, .before ((imm_adds himm).path.trans hpath) (loadAddress_emits hload)⟩

/-- What adding an offset can do: it is folded, or code is emitted. -/
inductive Added (env : Env) (s : State) (address : Partial) (offset : Int64)
    (address' : Partial) (s' : State) : Prop
  | folded (fits : Word.FitsI32 (address.disp.toInt + offset.toInt)) (state : s' = s)
      (base : address'.base = address.base)
      (disp : address'.disp.toInt = address.disp.toInt + offset.toInt)
  | flushed (large : ¬ Word.FitsI32 (address.disp.toInt + offset.toInt))
      (emits : EmitsCode env s s')
      (disp : address'.disp.toInt = if Word.FitsI32 offset.toInt then offset.toInt else 0)

theorem addOffset_added (h : Runs (addOffset address offset) env s address' s') :
    Word.FitsI64 (address.disp.toInt + offset.toInt) ∧
      Added env s address offset address' s' := by
  simp only [addOffset, runs_bind, runs_checkWord] at h
  obtain ⟨total, _, ⟨htotal, rfl⟩, h⟩ := h
  have hsum := addI64_eq_ok htotal
  have hfits := fitsI64_of_addI64 htotal
  rw [Int32.toInt_toInt64] at hsum hfits
  refine ⟨hfits, ?_⟩
  split at h
  · next disp hdisp =>
    obtain ⟨rfl, rfl⟩ := runs_pure.mp h
    rw [hsum] at hdisp
    exact .folded (fitsI32_of_toI32? hdisp) rfl rfl (toInt_of_toI32? hdisp)
  · next hlarge =>
    rw [hsum] at hlarge
    replace hlarge := toI32?_eq_none hlarge
    simp only [runs_bind] at h
    obtain ⟨base, s1, hflush, h⟩ := h
    split at h
    · next disp hdisp =>
      obtain ⟨rfl, rfl⟩ := runs_pure.mp h
      have hsmall := fitsI32_of_toI32? hdisp
      refine .flushed hlarge ?_ ?_
      · -- The displacement is not 0, or the sum would be the offset.
        unfold flush at hflush
        split at hflush
        · next hzero =>
          rw [hzero] at hlarge
          exact absurd ((Int.zero_add _).symm ▸ hsmall) hlarge
        · exact loadAddress_emits hflush
      · rw [if_pos hsmall]
        exact toInt_of_toI32? hdisp
    · next hwide =>
      obtain ⟨hdisp, hemits⟩ := addWideOffset_emits h
      obtain ⟨code, hpath, -⟩ : Walks env [] _ s address s1 ⟨base, 0⟩ :=
        flush_walks hflush
      refine .flushed hlarge (.before hpath hemits) ?_
      rw [if_neg (toI32?_eq_none hwide), hdisp]
      rfl

theorem addScaledIndex_disp (h : Runs (addScaledIndex address v size) env s address' s') :
    address'.disp.toInt = if (scaleOf? size).isSome then 0 else address.disp.toInt := by
  simp only [addScaledIndex, runs_bind] at h
  obtain ⟨x, s1, -, h⟩ := h
  split at h
  · next scale hscale =>
    simp only [runs_bind, runs_pure] at h
    obtain ⟨dst, s2, -, rfl, rfl⟩ := h
    rw [hscale]
    rfl
  · next hscale =>
    simp only [addProduct, runs_bind, runs_pure] at h
    obtain ⟨_, _, -, _, _, -, _, _, -, _, _, -, _, _, -, _, _, -, _, _, -, _, _, -, rfl,
      rfl⟩ := h
    rw [hscale]
    rfl

/-- A leg that was taken had a sum, and left the displacement that it settles on. -/
theorem takeLeg_settles (h : Runs (takeLeg address v leg) env s address' s') :
    leg.sumFits address.disp.toInt = true ∧
      address'.disp.toInt = leg.settle address.disp.toInt := by
  cases leg with
  | fixed offset =>
    obtain ⟨hfits, hadded⟩ := addOffset_added h
    refine ⟨decide_eq_true hfits, ?_⟩
    rw [Leg.settle]
    cases hadded with
    | folded fits _ _ disp => rw [if_pos fits, disp]
    | flushed large _ disp => rw [if_neg large, disp]
  | indexed size => exact ⟨rfl, addScaledIndex_disp h⟩

/-- All sums of a walk that was finished were words. -/
theorem walk_sums (h : Runs (walk gep indices address ty) env s address' s') :
    sumsFit address.disp.toInt (legs env.module ty indices) = true := by
  induction indices generalizing s address ty with
  | nil => rfl
  | cons v rest ih =>
    simp only [walk, runs_bind] at h
    obtain ⟨⟨a, next⟩, s1, hstep, h⟩ := h
    obtain ⟨leg, hleg, hrun⟩ := stepInto_runs hstep
    obtain ⟨hfits, hdisp⟩ := takeLeg_settles hrun
    rw [legs, hleg, sumsFit, hfits, ← hdisp]
    exact ih h

/-! ## Registers of a walk -/

theorem constantInt_noOverflow (m : IR.Module) (v : ValueId) :
    NoOverflow (m.constantInt v) := by
  refine (value_noOverflow m v).bind fun data _ => ?_
  obtain ⟨ty, kind⟩ := data
  cases kind with
  | constant k => cases k <;> exact .ok _
  | _ => exact .ok _

theorem elementOffset_noOverflow (gep : ValueId) (step : Int64) (size : UInt64) :
    NoOverflow (elementOffset gep step size) := by
  unfold elementOffset
  split
  · exact .ok _
  · exact .violate _

theorem memberIndex_noOverflow (gep : ValueId) (fields : List Ty) (index : Int64) :
    NoOverflow (memberIndex gep fields index) := by
  unfold memberIndex
  split
  · split
    · exact .ok _
    · exact .violate _
  · exact .violate _

theorem memoryOperand_costs (address : Partial) (index : Option (OperandId × UInt8)) :
    Costs env 0 (memoryOperand address index) := by
  refine (regOf_costs _).after fun r => ?_
  cases index with
  | none => exact mem_costs _ _
  | some x =>
    refine (storage_costs _).after fun st => .ofCheck (.require _ _) fun _ _ =>
      (regOf_costs _).after fun i => ?_
    refine .ofCheck ?_ fun a _ => mem_costs a _
    exact (NoOverflow.require _ _).bind fun _ _ => .ok _

theorem loadAddress_costs (address : Partial) (index : Option (OperandId × UInt8)) :
    Costs env 1 (loadAddress address index) :=
  (newVReg_costs .ptr).before fun dst =>
    (memoryOperand_costs address index).after fun memory =>
    (emit_costs .lea [dst, memory]).after fun _ => .pure dst

theorem flush_costs (address : Partial) : Costs env 1 (flush address) := by
  unfold flush
  split
  · exact .pure _
  · exact loadAddress_costs address none

theorem addWideOffset_costs (base : OperandId) (offset : Int64) :
    Costs env 2 (addWideOffset base offset) := by
  refine (imm_costs offset .i64).after fun src => ?_
  refine Costs.seq (k := 1) (n := 1) (copyToVReg_costs src) fun amount => ?_
  exact (loadAddress_costs _ _).before fun dst => .pure _

/-- Adding an offset, where the sum is a word. -/
theorem addOffset_costs (h : Word.FitsI64 (address.disp.toInt + offset.toInt)) :
    Costs env 3 (addOffset address offset) := by
  rw [← Int32.toInt_toInt64] at h
  refine .ofCheck
    (.ofWord (show Word.addI64 _ _ = .ok _ by rw [Word.addI64, Word.toI64?, if_pos h]))
    fun total _ => ?_
  split
  · exact .pure _
  · refine Costs.seq (k := 1) (n := 2) (flush_costs address) fun base => ?_
    split
    · exact .pure _
    · exact addWideOffset_costs base offset

theorem indexRegister_costs (hv : Rounded env.module v) :
    Costs env 3 (indexRegister v) := by
  have hsigned : Costs env 0 (isSigned v) :=
    .ofModule (.ofCheck (valueTy_noOverflow _ v) fun _ _ => .pure _)
  refine hsigned.after fun signed =>
    Costs.seq (k := 1) (n := 2) (valueOperand_costs hv) fun mid => ?_
  refine Costs.seq (k := 1) (n := 1) (intoRegister_costs mid) fun id =>
    (storage_costs id).after fun st => ?_
  split
  · exact .pure id
  · exact (newVReg_costs .i64).before fun wide => (emit_costs _ _).after fun _ =>
      .pure wide

theorem addProduct_costs (address : Partial) (index : OperandId) (size : UInt64) :
    Costs env 3 (addProduct address index size) := by
  refine Costs.seq (k := 1) (n := 2) (newVReg_costs .i64) fun product =>
    (emit_costs _ _).after fun _ => ?_
  refine (imm_costs _ _).after fun src =>
    Costs.seq (k := 1) (n := 1) (copyToVReg_costs src) fun factor => ?_
  refine (emit_costs _ _).after fun _ => (newVReg_costs .ptr).before fun sum => ?_
  exact (emit_costs _ _).after fun _ => (emit_costs _ _).after fun _ => .pure _

theorem addScaledIndex_costs (hv : Rounded env.module v) (address : Partial)
    (size : UInt64) :
    Costs env 6 (addScaledIndex address v size) := by
  refine Costs.seq (k := 3) (n := 3) (indexRegister_costs hv) fun index => ?_
  split
  · exact ((loadAddress_costs _ _).before fun dst => .pure _).mono (by decide)
  · exact addProduct_costs address index size

theorem stepElement_costs (hsize : element.rounds = true) (hv : Rounded env.module v)
    (hsum : ∀ leg, elementLeg? env.module element v = some leg →
      leg.sumFits address.disp.toInt = true) :
    Costs env 6 (stepElement gep address element v) := by
  obtain ⟨hsized, -⟩ := IR.size_of_rounds hsize
  refine .ofCheck (.ofWord hsized) fun size hsize' => ?_
  refine .ofModule (.ofCheck (constantInt_noOverflow _ v) fun k hk => ?_)
  cases k with
  | some step =>
    refine .ofCheck (elementOffset_noOverflow gep step size) fun offset hoffset => ?_
    have hfits := hsum _ (elementLeg?_constant (ofWord_eq_ok.mp hsize') hk hoffset)
    exact (addOffset_costs (of_decide_eq_true hfits)).mono (by decide)
  | none => exact addScaledIndex_costs hv address size

theorem stepMember_costs {name : Option String}
    (hsize : (Ty.struct name fields packed).rounds = true)
    (hsum : ∀ leg next, memberLeg? env.module fields packed v = some (leg, next) →
      leg.sumFits address.disp.toInt = true) :
    Costs env 6 (stepMember gep address fields packed v) := by
  have hlayout := Ty.structLayout_eq name fields packed
  rw [if_pos hsize] at hlayout
  refine .ofModule (.ofCheck (constantInt_noOverflow _ v) fun k hk => ?_)
  cases k with
  | none => exact .check (.violate _)
  | some index =>
    refine .ofCheck (memberIndex_noOverflow gep fields index) fun found hfound => ?_
    refine .ofCheck (.ofWord hlayout) fun layout hlayout' => ?_
    have hfits := hsum _ _ (memberLeg?_constant hk hfound (ofWord_eq_ok.mp hlayout'))
    exact ((addOffset_costs (of_decide_eq_true hfits)).before fun a => .pure _).mono
      (by decide)

/-- A step whose layout exists, and whose sum is a word. -/
theorem stepInto_costs (hsize : ty.stepped.rounds = true) (hv : Rounded env.module v)
    (hsum : ∀ leg next, legOf? env.module ty v = some (leg, next) →
      leg.sumFits address.disp.toInt = true) :
    Costs env 6 (stepInto gep address ty v) := by
  have helement : ∀ {element : Ty}, element.rounds = true →
      (∀ leg next, (elementLeg? env.module element v).map (·, element) =
        some (leg, next) →
          leg.sumFits address.disp.toInt = true) →
      Costs env 6 (stepElement gep address element v >>= fun a => pure (a, element)) := by
    intro element hsize hsum
    refine (stepElement_costs hsize hv fun leg hleg => ?_).before fun a => .pure _
    exact hsum leg element (by rw [hleg]; rfl)
  cases ty with
  | struct => exact stepMember_costs hsize hsum
  | ptr | array => exact helement hsize hsum
  | _ => exact .check (.violate _)

/--
A walk whose layouts exist, and whose sums are words, overflows only for want of
registers.
-/
theorem walk_costs (hsize : Measured env.module ty indices)
    (hv : ∀ v ∈ indices, Rounded env.module v)
    (hsums : sumsFit address.disp.toInt (legs env.module ty indices) = true) :
    Costs env (6 * indices.length) (walk gep indices address ty) := by
  induction indices generalizing address ty with
  | nil => exact .pure address
  | cons v rest ih =>
    rw [List.forall_mem_cons] at hv
    obtain ⟨hstepped, hnext⟩ := hsize
    have hleg : ∀ leg next, legOf? env.module ty v = some (leg, next) →
        leg.sumFits address.disp.toInt = true ∧
          sumsFit (leg.settle address.disp.toInt) (legs env.module next rest) = true := by
      intro leg next hleg
      rw [legs, hleg] at hsums
      exact (Bool.and_eq_true _ _).mp hsums
    have hlength : 6 * (v :: rest).length = 6 + 6 * rest.length := by
      rw [List.length_cons]
      omega
    rw [hlength]
    refine (stepInto_costs hstepped hv.1 fun leg next h => (hleg leg next h).1).bind
      fun s reached s' hstep => ?_
    obtain ⟨a, next⟩ := reached
    obtain ⟨leg, hlegOf, hrun⟩ := stepInto_runs hstep
    refine ih (hnext leg next hlegOf) hv.2 ?_
    rw [(takeLeg_settles hrun).2]
    exact (hleg leg next hlegOf).2

/-! ## Walks over constants -/

/--
The sums of a displacement with the first of the offsets, the first two, and so on are
displacements.
-/
def PrefixesFit (disp : Int) (offsets : List Int64) : Prop :=
  ∀ k ≤ offsets.length, Word.FitsI32 (disp + ((offsets.take k).map (·.toInt)).sum)

theorem prefixesFit_cons {disp : Int} {rest : List Int64} (hdisp : Word.FitsI32 disp) :
    PrefixesFit disp (offset :: rest) ↔ PrefixesFit (disp + offset.toInt) rest := by
  constructor
  · intro h k hk
    have hnext := h (k + 1) (Nat.succ_le_succ hk)
    rw [List.take_succ_cons, List.map_cons, List.sum_cons, ← Int.add_assoc] at hnext
    exact hnext
  · intro h k hk
    cases k with
    | zero => simpa using hdisp
    | succ k =>
      rw [List.take_succ_cons, List.map_cons, List.sum_cons, ← Int.add_assoc]
      exact h k (Nat.le_of_succ_le_succ hk)

theorem PrefixesFit.disp {disp : Int} {offsets : List Int64}
    (h : PrefixesFit disp offsets) : Word.FitsI32 disp := by
  simpa using h 0 (Nat.zero_le _)

theorem elementLeg?_fixed (hk : m.constantInt v = .ok (some k))
    (h : elementLeg? m element v = some leg) : ∃ offset, leg = .fixed offset := by
  unfold elementLeg? at h
  rw [hk] at h
  split at h
  · obtain ⟨offset, -, rfl⟩ := Option.map_eq_some_iff.mp h
    exact ⟨offset, rfl⟩
  · next hnone => cases hnone
  · cases h

theorem memberLeg?_fixed (h : memberLeg? m fields packed v = some (leg, next)) :
    ∃ offset, leg = .fixed offset := by
  unfold memberLeg? at h
  split at h
  · split at h
    · obtain ⟨offset, -, h⟩ := Option.bind_eq_some_iff.mp h
      obtain ⟨field, -, h⟩ := Option.bind_eq_some_iff.mp h
      cases h
      exact ⟨_, rfl⟩
    · cases h
  · cases h

/-- The leg of a constant index is an offset. -/
theorem legOf?_fixed (hk : m.constantInt v = .ok (some k))
    (h : legOf? m ty v = some (leg, next)) : ∃ offset, leg = .fixed offset := by
  cases ty with
  | struct => exact memberLeg?_fixed h
  | ptr | array =>
    obtain ⟨leg', hleg, heq⟩ := Option.map_eq_some_iff.mp h
    cases heq
    exact elementLeg?_fixed hk hleg
  | _ => cases h

/--
A walk over constants folds all of them as long as the sums fit, and emits code from there
on.
-/
theorem walk_folds
    (hconstants : ∀ v ∈ indices, ∃ k, env.module.constantInt v = .ok (some k))
    (h : Runs (walk gep indices address ty) env s address' s') :
    ∃ offsets : List Int64, legs env.module ty indices = offsets.map .fixed ∧
      offsets.length = indices.length ∧
      (PrefixesFit address.disp.toInt offsets ∧ s' = s ∧ address'.base = address.base ∧
          address'.disp.toInt = address.disp.toInt + (offsets.map (·.toInt)).sum ∨
        ¬ PrefixesFit address.disp.toInt offsets ∧ EmitsCode env s s') := by
  induction indices generalizing s address ty with
  | nil =>
    obtain ⟨rfl, rfl⟩ := runs_pure.mp h
    refine ⟨[], rfl, rfl, .inl ⟨fun k hk => ?_, rfl, rfl, (Int.add_zero _).symm⟩⟩
    simpa using fitsI32_toInt address.disp
  | cons v rest ih =>
    rw [List.forall_mem_cons] at hconstants
    obtain ⟨⟨k, hk⟩, hrest⟩ := hconstants
    simp only [walk, runs_bind] at h
    obtain ⟨⟨a, next⟩, s1, hstep, h⟩ := h
    obtain ⟨leg, hleg, hrun⟩ := stepInto_runs hstep
    obtain ⟨offset, rfl⟩ := legOf?_fixed hk hleg
    obtain ⟨-, hadded⟩ := addOffset_added hrun
    obtain ⟨offsets, hlegs, hlength, hcases⟩ := ih hrest h
    refine ⟨offset :: offsets, by rw [legs, hleg, List.map_cons, ← hlegs],
      by rw [List.length_cons, hlength]; rfl, ?_⟩
    rw [prefixesFit_cons (fitsI32_toInt address.disp)]
    cases hadded with
    | folded fits state base disp =>
      subst state
      rw [disp] at hcases
      rcases hcases with ⟨hfits, hstate, hbase, hdisp⟩ | hemits
      · refine .inl ⟨hfits, hstate, hbase.trans base, ?_⟩
        rw [hdisp, List.map_cons, List.sum_cons, Int.add_assoc]
      · exact .inr hemits
    | flushed large emits disp =>
      obtain ⟨code, hpath, -⟩ := walk_walks h
      exact .inr ⟨fun hfits => large hfits.disp, emits.then hpath⟩

/-! ## Element addresses -/

/-- A base that is in a register stays there, and is not copied. -/
theorem addressRegister_register {final : State}
    (h : Runs (addressRegister v) env s id s') (hlater : Path env s' final code)
    (ho : final.Locates v o) (hregister : o.isRegister = true) :
    Path env s s' [] ∧ s'.values.find? v = some id := by
  simp only [addressRegister, runs_bind] at h
  obtain ⟨mid, s1, hmid, hid⟩ := h
  simp only [valueOperand, runs_bind] at hmid
  obtain ⟨root, t, hroot, x, _, hx, hmid⟩ := hmid
  obtain ⟨c, hc, hget, rfl⟩ := runs_operand.mp hx
  obtain ⟨hpath, -, hvalue⟩ := resolve_path hroot
  -- What was there at first is there at the end.
  have hsame : ∀ {code' : List Code}, Path env t s' code' → x.isRegister = true := by
    intro code' hp
    have hp' := hp.trans hlater
    obtain ⟨root', hroot', ho⟩ := ho
    cases hroot'.symm.trans (hp'.values hvalue)
    cases ho.unique (State.Holds.later ⟨c, hc, hget⟩ (.of_path hp'))
    exact hregister
  obtain ⟨code2, hpath2, -⟩ := intoRegister_fetch hid
  split at hmid
  · next haddress =>
    simp only [runs_bind, runs_pure] at hmid
    obtain ⟨dst, s2, hnew, _, s3, hemit, rfl, rfl⟩ := hmid
    obtain ⟨r, -, -, p1, -⟩ := newVReg_adds hnew
    obtain ⟨os, p2, -, -, -⟩ := emit_path hemit
    rw [Operand.needsAddress_of_isRegister
      (hsame (p1.trans (p2.trans hpath2)))] at haddress
    cases haddress
  · obtain ⟨rfl, rfl⟩ := runs_pure.mp hmid
    simp only [intoRegister, runs_bind] at hid
    obtain ⟨y, _, hy, hid⟩ := hid
    obtain ⟨c', hc', hget', rfl⟩ := runs_operand.mp hy
    cases hc.symm.trans hc'
    cases hget.symm.trans hget'
    rw [if_pos (hsame hpath2)] at hid
    obtain ⟨rfl, rfl⟩ := runs_pure.mp hid
    exact ⟨hpath, hvalue⟩

variable {i : Inst} {base : ValueId}

/--
An element address overflows where a sum of its displacement and an offset is no signed
word of 64 bits, and only there, as long as the layouts that it asks for exist and the
function has registers left. After the first step, offsets that are 32 bits away from the
limits are safe.
-/
theorem lowerGep_sums (hops : i.operands = base :: indices)
    (hty : env.module.valueTy base = .ok ty) (hsize : Measured env.module ty indices)
    (htypes : ∀ v ∈ i.operands, Rounded env.module v) :
    (sumsFit 0 (legs env.module ty indices) = true →
      ∀ s, s.vregs + 6 * indices.length + 3 < UInt32.size →
      ∀ operation s', ¬ Fails (lowerGep i) env s (.overflow operation) s') ∧
    (∀ s id s', Runs (lowerGep i) env s id s' →
      sumsFit 0 (legs env.module ty indices) = true) ∧
    ((∀ offset, .fixed offset ∈ (legs env.module ty indices).tail →
      IR.SafeOffset offset) →
      sumsFit 0 (legs env.module ty indices) = true) := by
  rw [hops, List.forall_mem_cons] at htypes
  refine ⟨fun hsums s hroom operation s' hfail => ?_,
    fun s id s' hrun => ?_, sumsFit_of_tail⟩
  · have hcosts : Costs env (2 + (6 * indices.length + 1)) (lowerGep i) := by
      unfold lowerGep
      rw [hops]
      refine (addressRegister_costs htypes.1).seq fun register => .ofModule ?_
      refine .ofCheck (valueTy_noOverflow _ base) fun ty' hty' => ?_
      cases hty.symm.trans hty'
      have hwalk : Costs env (6 * indices.length)
          (walk i.value indices ⟨register, 0⟩ ty) :=
        walk_costs hsize htypes.2 hsums
      exact hwalk.seq fun address => loadAddress_costs address none
    have hspent := hcosts.overflows s operation s' hfail
    omega
  · simp only [lowerGep, hops, runs_bind, runs_sourceModule, runs_check] at hrun
    obtain ⟨register, s₁, -, _, _, ⟨rfl, rfl⟩, ty', _, ⟨hty', rfl⟩, address, s₂,
      hwalk, -⟩ := hrun
    cases hty.symm.trans hty'
    exact walk_sums hwalk

/-- From a block of eight bytes to the next one, and on by a constant number of bytes. -/
def leap : Inst := ⟨.gep, [⟨1⟩, ⟨2⟩, ⟨3⟩], .ptr (.int .w8), ⟨0⟩, ⟨5⟩⟩

/-- `f(p)` is the address `n` bytes behind the first eight. -/
def leaping (n : Int64) : IR.Module where
  name := "m"
  values := #[⟨.ptr (.function [.ptr (.array (.int .w8) 8)] (.ptr (.int .w8)) false),
    .function ⟨0⟩⟩,
    ⟨.ptr (.array (.int .w8) 8), .argument ⟨0⟩ 0⟩, ⟨.int .w64, .constant (.int 1)⟩,
    ⟨.int .w64, .constant (.int n)⟩, ⟨.void, .block ⟨0⟩⟩,
    ⟨.ptr (.int .w8), .instruction ⟨0⟩⟩, ⟨.void, .instruction ⟨1⟩⟩]
  insts := #[leap, ⟨.ret, [⟨5⟩], .void, ⟨0⟩, ⟨6⟩⟩]
  blocks := #[⟨⟨0⟩, some "entry", [⟨0⟩, ⟨1⟩], ⟨4⟩⟩]
  functions :=
    #[⟨"f", ⟨[.ptr (.array (.int .w8) 8)], .ptr (.int .w8), false⟩, [⟨1⟩], [⟨0⟩],
      false, ⟨0⟩⟩]
  globals := #[]

theorem leaping_measured (n : Int64) :
    Measured (leaping n) (.ptr (.array (.int .w8) 8)) [⟨2⟩, ⟨3⟩] := by
  refine ⟨rfl, fun leg next h => ⟨?_, fun _ _ _ => trivial⟩⟩
  cases h
  rfl

theorem leaping_rounded (n : Int64) : ∀ v ∈ leap.operands, Rounded (leaping n) v := by
  intro v hv ty hty
  simp only [leap, List.mem_cons, List.not_mem_nil, or_false] at hv
  rcases hv with rfl | rfl | rfl <;> cases hty <;> rfl

/-- The sum of the two offsets may be the largest word. -/
theorem leaping_sums :
    legs (leaping 0x7FFFFFFFFFFFFFF7) (.ptr (.array (.int .w8) 8)) [⟨2⟩, ⟨3⟩] =
      [.fixed 8, .fixed 0x7FFFFFFFFFFFFFF7] ∧
      sumsFit 0 [.fixed 8, .fixed 0x7FFFFFFFFFFFFFF7] = true ∧
      ∀ s : State, s.vregs + 15 < UInt32.size → ∀ operation s',
        ¬ Fails (lowerGep leap) ⟨leaping 0x7FFFFFFFFFFFFFF7, .win64⟩ s
          (.overflow operation) s' := by
  have hlegs : legs (leaping 0x7FFFFFFFFFFFFFF7) (.ptr (.array (.int .w8) 8)) [⟨2⟩, ⟨3⟩] =
      [.fixed 8, .fixed 0x7FFFFFFFFFFFFFF7] := by decide
  have hfits : sumsFit 0 [.fixed 8, .fixed 0x7FFFFFFFFFFFFFF7] = true := by decide
  obtain ⟨hnone, -⟩ :=
    @lowerGep_sums ⟨leaping 0x7FFFFFFFFFFFFFF7, .win64⟩ [⟨2⟩, ⟨3⟩]
      (.ptr (.array (.int .w8) 8)) leap
    ⟨1⟩ rfl rfl (leaping_measured _) (leaping_rounded _)
  rw [hlegs] at hnone
  exact ⟨hlegs, hfits, hnone hfits⟩

/-- One byte further the sum overflows, although each of the two offsets is a word. -/
theorem leaping_overflows :
    legs (leaping 0x7FFFFFFFFFFFFFF8) (.ptr (.array (.int .w8) 8)) [⟨2⟩, ⟨3⟩] =
      [.fixed 8, .fixed 0x7FFFFFFFFFFFFFF8] ∧
      Measured (leaping 0x7FFFFFFFFFFFFFF8) (.ptr (.array (.int .w8) 8)) [⟨2⟩, ⟨3⟩] ∧
      (∀ v ∈ leap.operands, Rounded (leaping 0x7FFFFFFFFFFFFFF8) v) ∧
      lowerModule (leaping 0x7FFFFFFFFFFFFFF8) .win64 = .error (.overflow .add) :=
  ⟨by decide, leaping_measured _, leaping_rounded _, rfl⟩

/-- The address in a register plus a displacement, computed into a register. -/
def addressCode (q : VReg) (r : Reg) (disp : Int32) : Code :=
  ⟨.lea, [⟨.virt q, .ptr⟩, ⟨.mem ((Address.ofBase r).withDisp disp), .ptr⟩]⟩

/-- The last instruction of an element address. -/
theorem loadAddress_last {c : Current} (h : Runs (loadAddress address none) env s id s')
    (hc : s'.current = some c) (hsmall : c.machine.operands.size ≤ 2 ^ 32) :
    ∃ q r o, Path env s s' [addressCode q r address.disp] ∧ s'.Holds id ⟨.virt q, .ptr⟩ ∧
      s'.Holds address.base o ∧
      o.reg? = some r := by
  have hA := within_arena hc hsmall
  obtain ⟨code, q, a, hpath, -, -, ⟨r, hr, rfl⟩, hcode⟩ := loadAddress_code h
  obtain ⟨hid, rfl⟩ := hcode _ hA
  obtain ⟨o, ho, hreg⟩ := hr _ hA
  exact ⟨q, r, o, hpath, holds_of_arena hc hid, holds_of_arena hc ho, hreg⟩

theorem isRegister_of_reg {r : Reg} (h : o.reg? = some r) : o.isRegister = true := by
  obtain ⟨form, st⟩ := o
  cases form <;> cases h <;> rfl

/--
An element address with constant indices, from a base in a register, is a single
instruction if and only if the offsets of its steps can be summed up within 32 bits. Then
the displacement is their sum.
-/
theorem lowerGep_folds {id : OperandId} {c : Current} {o : Operand} {r : Reg}
    (hops : i.operands = base :: indices) (hty : env.module.valueTy base = .ok ty)
    (hconstants : ∀ v ∈ indices, ∃ k, env.module.constantInt v = .ok (some k))
    (hrun : Runs (lowerGep i) env s id s') (hc : s'.current = some c)
    (hsmall : c.machine.operands.size ≤ 2 ^ 32) (hbase : s'.Locates base o)
    (hr : o.reg? = some r) :
    ∃ (offsets : List Int64) (insts : List Machine.Inst) (code : List Code) (q : VReg),
      legs env.module ty indices = offsets.map .fixed ∧ offsets.length = indices.length ∧
      Gains s s' insts ∧ c.machine.decode insts = some code ∧
        s'.Holds id ⟨.virt q, .ptr⟩ ∧
      ((∃ disp, code = [addressCode q r disp]) ↔
        ∀ k ≤ offsets.length, Word.FitsI32 ((offsets.take k).map (·.toInt)).sum) ∧
      (code.length = 1 ↔
        ∀ k ≤ offsets.length, Word.FitsI32 ((offsets.take k).map (·.toInt)).sum) ∧
      ∀ disp, code = [addressCode q r disp] →
        disp.toInt = (offsets.map (·.toInt)).sum := by
  simp only [lowerGep, hops, runs_bind, runs_sourceModule, runs_check] at hrun
  obtain ⟨register, s₁, hregister, _, _, ⟨rfl, rfl⟩, ty', _, ⟨hty', rfl⟩, address, s₂,
    hwalk, hload⟩ := hrun
  cases hty.symm.trans hty'
  obtain ⟨q, r', o', hlast, hid, ho', hr'⟩ := loadAddress_last hload hc hsmall
  obtain ⟨cw, hpath, -⟩ := walk_walks hwalk
  obtain ⟨hfirst, hregister⟩ :=
    addressRegister_register hregister (hpath.trans hlast) hbase (isRegister_of_reg hr)
  obtain ⟨offsets, hlegs, hlength, hcases⟩ := walk_folds hconstants hwalk
  have hprefixes : PrefixesFit (0 : Int32).toInt offsets ↔
      ∀ k ≤ offsets.length, Word.FitsI32 ((offsets.take k).map (·.toInt)).sum := by
    simp only [PrefixesFit, Int32.toInt_zero, Int.zero_add]
  rw [hprefixes] at hcases
  rcases hcases with ⟨hfit, rfl, haddress, hdisp⟩ | ⟨hunfit, cw', hpath', hne⟩
  · -- Everything was folded: the last instruction is the only one, and its base is the
    -- register of the base.
    obtain ⟨insts, hgains, hdecodes⟩ := (hfirst.after hlast).gains hc
    have hsame : r' = r := by
      rw [haddress] at ho'
      cases hbase.unique ⟨register, hlast.values hregister, ho'⟩
      exact Option.some.inj (hr'.symm.trans hr)
    subst hsame
    refine ⟨offsets, insts, _, q, hlegs, hlength, hgains,
      Machine.Function.decode_eq_some.mpr hdecodes, hid,
      ⟨fun _ => hfit, fun _ => ⟨_, rfl⟩⟩, ⟨fun _ => hfit, fun _ => rfl⟩,
      fun disp hcode => ?_⟩
    cases hcode
    rw [hdisp, Int32.toInt_zero, Int.zero_add]
  · -- The walk emitted code before the last instruction.
    obtain ⟨insts, hgains, hdecodes⟩ := (hfirst.after (hpath'.trans hlast)).gains hc
    have hlong : (cw' ++ [addressCode q r' address.disp]).length ≠ 1 := by
      have hpos :=
        List.length_pos_of_ne_nil (hne _ (hlast.within (within_arena hc hsmall)))
      rw [List.length_append, List.length_singleton]
      omega
    have hmore : ∀ disp, cw' ++ [addressCode q r' address.disp] ≠
        [addressCode q r disp] := by
      intro disp hcode
      exact hlong (congrArg List.length hcode)
    refine ⟨offsets, insts, _, q, hlegs, hlength, hgains,
      Machine.Function.decode_eq_some.mpr hdecodes, hid,
      ⟨fun h => ?_, fun h => absurd h hunfit⟩,
      ⟨fun h => absurd h hlong, fun h => absurd h hunfit⟩,
      fun disp hcode => absurd hcode (hmore disp)⟩
    obtain ⟨disp, hcode⟩ := h
    exact absurd hcode (hmore disp)

/-- A number and four halves of one: twelve bytes. -/
def slot : Ty := .struct none [.int .w32, .array (.int .w16) 4] false

/-- Back by five slots, to the first of them, and to the last of its halves. -/
def halfway : Inst := ⟨.gep, [⟨1⟩, ⟨2⟩, ⟨3⟩, ⟨4⟩, ⟨5⟩], .ptr (.int .w16), ⟨0⟩, ⟨7⟩⟩

/-- `f(p)` is the address of `p[-1][0].halves[3]`. -/
def stepping : IR.Module where
  name := "m"
  values := #[⟨.ptr (.function [.ptr (.array slot 5)] (.ptr (.int .w16)) false),
    .function ⟨0⟩⟩,
    ⟨.ptr (.array slot 5), .argument ⟨0⟩ 0⟩, ⟨.int .w64, .constant (.int (-1))⟩,
    ⟨.int .w32, .constant .zero⟩,
    ⟨.int .w32, .constant (.int 1)⟩, ⟨.uint .w8, .constant (.int 3)⟩, ⟨.void, .block ⟨0⟩⟩,
    ⟨.ptr (.int .w16), .instruction ⟨0⟩⟩]
  insts := #[halfway]
  blocks := #[⟨⟨0⟩, none, [⟨0⟩], ⟨6⟩⟩]
  functions :=
    #[⟨"f", ⟨[.ptr (.array slot 5)], .ptr (.int .w16), false⟩, [⟨1⟩], [⟨0⟩], false, ⟨0⟩⟩]
  globals := #[]

/-- Offsets of -60, 0, 4 and 6 are folded into one. -/
theorem stepping_folds :
    ∃ s s' c id, Runs (lowerGep halfway) ⟨stepping, .win64⟩ s id s' ∧
      s'.current = some c ∧
      c.machine.operands.size ≤ 2 ^ 32 ∧ s'.Locates ⟨1⟩ ⟨.phys .rcx, .ptr⟩ ∧
      ∃ insts q, Gains s s' insts ∧
        c.machine.decode insts = some [addressCode q (.phys .rcx) (-50)] ∧
        s'.Holds id ⟨.virt q, .ptr⟩ := by
  obtain ⟨s, hs, hleaves⟩ := reached_of_enters
    (show enters ⟨stepping, .win64⟩ ⟨0⟩ ⟨0⟩ (fun s =>
      leaves (lowerGep halfway) ⟨stepping, .win64⟩ s
        fun _ s => s.binds ⟨1⟩ ⟨.phys .rcx, .ptr⟩) = true by decide +kernel)
  obtain ⟨id, s', hrun, hp⟩ := runs_of_leaves hleaves
  obtain ⟨_, -, ⟨c, hc, -⟩, hsmall⟩ := State.exists_of_binds hp
  replace hp := State.locates_of_binds hp
  have hconstants : ∀ v ∈ [(⟨2⟩ : ValueId), ⟨3⟩, ⟨4⟩, ⟨5⟩], ∃ k,
      stepping.constantInt v = .ok (some k) := by
    intro v hv
    simp only [List.mem_cons, List.not_mem_nil, or_false] at hv
    rcases hv with rfl | rfl | rfl | rfl <;> exact ⟨_, rfl⟩
  obtain ⟨offsets, insts, code, q, hlegs, -, hgains, hdecode, hid, hcode, -, hsum⟩ :=
    @lowerGep_folds ⟨stepping, .win64⟩ s s' [⟨2⟩, ⟨3⟩, ⟨4⟩, ⟨5⟩] (.ptr (.array slot 5))
      halfway ⟨1⟩ id c
      ⟨.phys .rcx, .ptr⟩ (.phys .rcx) rfl rfl hconstants hrun hc (hsmall c hc) hp rfl
  have hoffsets : offsets = [-60, 0, 4, 6] := by
    refine List.map_injective_iff.mpr (fun a b h => Leg.fixed.inj h) (hlegs.symm.trans ?_)
    rfl
  subst hoffsets
  obtain ⟨disp, rfl⟩ := hcode.mpr (by decide)
  have hdisp : disp = -50 := Int32.toInt_inj.mp (hsum disp rfl)
  subst hdisp
  exact ⟨s, s', c, id, hrun, hc, hsmall c hc, hp, insts, q, hgains, hdecode, hid⟩

end InstSelect.Lowering
