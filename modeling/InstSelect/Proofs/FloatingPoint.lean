import InstSelect.Proofs.WholeModules

/-!
# Floating point in emitted code

Selection covers integers only. The types of parameters, results, loads and stores are
checked, and so is every constant written as a floating-point number. What is not checked
is the type of the other scalar constants: an integer, null, zero or undefined constant
becomes an immediate of whatever class its type has. These immediates are the only way for
a floating class to come into a function that has a body.
-/

namespace InstSelect.IR.Module

open Lowering (constantWord?)

/-- A constant of floating type that is not written as a floating-point number. -/
def isFloatWord (m : Module) (v : ValueId) : Bool :=
  match m.value v with
  | .ok ⟨ty, .constant k⟩ => (constantWord? k).isSome && ty.isFloat
  | _ => false

/--
No instruction of a module names a constant of floating type that is not written as a
number.
-/
def namesNoFloatWord (m : Module) : Bool :=
  m.functions.all fun f => (m.mentioned f).all fun v => !m.isFloatWord v

end InstSelect.IR.Module

namespace InstSelect.Lowering

open Machine (Storage Program)

variable {m : IR.Module} {abi : Abi} {p : Program}

/-- The floating classes are those of the floating types. -/
theorem isFloat_of_storageOf {ty : IR.Ty} {st : Storage} (h : storageOf ty = .ok st) :
    st.isFloat = ty.isFloat := by
  cases ty with
  | struct name fields packed =>
    obtain ⟨size, -, h⟩ := bind_eq_ok.mp h
    obtain rfl := pure_eq_ok.mp h
    unfold Storage.integerOfSize?
    split
    · rfl
    · split
      · rfl
      · split
        · rfl
        · split <;> rfl
  | int width | uint width =>
    cases h
    cases width <;> rfl
  | array element length => cases h
  | function params ret variadic => cases h
  | type => cases h
  | _ =>
    cases h
    rfl

/-- Without constants of floating type, all operands are of other classes. -/
theorem supply_integers (env : Env) :
    Supply env (fun v => env.module.isFloatWord v = false) fun o => o.storage.isFloat =
      false where
  plain _ hst _ _ := hst
  alike _ ho _ _ := ho
  constant v ty k n st hv hvalue hword hst := by
    rw [isFloat_of_storageOf hst]
    simpa [IR.Module.isFloatWord, hvalue, hword] using hv
  function _ _ _ _ _ := rfl
  global _ _ _ := rfl

/--
If no instruction names a constant of floating type other than a number, then no
instruction of a function with a body has an operand of a floating class. The same holds
of code that a declaration carries, unless the declared result is floating: the results of
declarations are not checked.
-/
theorem lowerModule_floatFree {alloc : Machine.Allocator}
    (hwords : m.namesNoFloatWord = true) (h : lowerModule m abi = .ok p) :
    ∀ g ∈ p.functions, (g.flags.isExternal = true → g.ret.isFloat = false) →
      ∀ block ∈ g.blocks, ∀ i ∈ block.insts, ∀ id ∈ i.operands, ∀ o,
        g.operand id = .ok o →
        o.storage.isFloat = false := by
  intro g hg hret block _ i _ id _ o ho
  obtain ⟨gs, fs, -, -, -, hms⟩ := lowerModule_items h
  obtain ⟨f, -, func, s, s', hf, hrun⟩ := exists_right_of_forall₂ hms.flip hg
  have hheads : Heads f g := Emits.heads ⟨func, s, s', hf, hrun⟩
  have hmentioned : ∀ v ∈ m.mentioned f, m.isFloatWord v = false := by
    have hall :=
      Array.all_eq_true'.mp hwords f
        (Array.mem_of_getElem? (IR.Module.function_eq_ok.mp hf))
    intro v hv
    simpa using List.all_eq_true.mp hall v hv
  refine (fillFunction_contents (supply_integers ⟨m, abi⟩) hf hmentioned ?_ hrun).2 o
    (Array.mem_of_getElem? (operand_eq_ok.mp ho))
  intro hext st hst form _
  cases hst.symm.trans hheads.ret
  exact hret (by rw [hheads.flags]; exact hext)

/-- `f(x) = x + 0`, where the zero is of a given type. -/
def addZero (ty : IR.Ty) : IR.Module where
  name := "m"
  values := #[⟨.ptr (.function [.int .w64] (.int .w64) false), .function ⟨0⟩⟩,
    ⟨.int .w64, .argument ⟨0⟩ 0⟩,
    ⟨.void, .block ⟨0⟩⟩, ⟨ty, .constant .zero⟩, ⟨.int .w64, .instruction ⟨0⟩⟩,
    ⟨.void, .instruction ⟨1⟩⟩]
  insts := #[⟨.add, [⟨1⟩, ⟨3⟩], .int .w64, ⟨0⟩, ⟨4⟩⟩, ⟨.ret, [⟨4⟩], .void, ⟨0⟩, ⟨5⟩⟩]
  blocks := #[⟨⟨0⟩, none, [⟨0⟩, ⟨1⟩], ⟨2⟩⟩]
  functions := #[⟨"f", ⟨[.int .w64], .int .w64, false⟩, [⟨1⟩], [⟨0⟩], false, ⟨0⟩⟩]
  globals := #[]

/-- With an integer zero, the sum is computed without floating operands. -/
theorem addZero_floatFree :
    (addZero (.int .w64)).namesNoFloatWord = true ∧
      ∃ p, lowerModule (addZero (.int .w64)) .win64 = .ok p ∧
        ∃ g ∈ p.functions, g.flags.isExternal = false ∧
        ∃ block ∈ g.blocks, 2 ≤ block.insts.length ∧
          ∀ i ∈ block.insts, ∀ id ∈ i.operands, ∀ o, g.operand id = .ok o →
            o.storage.isFloat = false := by
  have hwords : (addZero (.int .w64)).namesNoFloatWord = true := by decide +kernel
  obtain ⟨p, hp, htest⟩ := exists_of_lowersTo
    (show lowersTo (addZero (.int .w64)) .win64
    (fun p => p.functions.any fun g => !g.flags.isExternal &&
      g.blocks.any fun block => decide (2 ≤ block.insts.length)) = true by decide +kernel)
  obtain ⟨g, hg, htest⟩ := List.any_eq_true.mp htest
  obtain ⟨hdefined, hblock⟩ := (Bool.and_eq_true _ _).mp htest
  have hdefined : g.flags.isExternal = false := by simpa using hdefined
  obtain ⟨block, hblock, hlength⟩ := Array.any_eq_true'.mp hblock
  refine ⟨hwords, p, hp, g, hg, hdefined, block, hblock, of_decide_eq_true hlength, ?_⟩
  exact lowerModule_floatFree hwords hp g hg (by simp [hdefined]) block hblock

/--
With a zero of type `f64`, an instruction that adds integers has a floating operand.
-/
theorem addZero_floats :
    ∃ p, lowerModule (addZero .f64) .win64 = .ok p ∧
      ∃ g ∈ p.functions, g.flags.isExternal = false ∧
      ∃ block ∈ g.blocks, ∃ i ∈ block.insts, i.op = .add ∧
        ∃ id ∈ i.operands, g.operand id = .ok ⟨.imm 0, .f64⟩ := by
  obtain ⟨p, hp, htest⟩ := exists_of_lowersTo
    (show lowersTo (addZero .f64) .win64
      (fun p => p.functions.any fun g => !g.flags.isExternal &&
        g.blocks.any fun block => block.insts.any fun i => i.op = .add &&
          i.operands.any fun id => g.operands[id.index.toNat]? = some ⟨.imm 0, .f64⟩) =
          true by decide +kernel)
  obtain ⟨g, hg, htest⟩ := List.any_eq_true.mp htest
  obtain ⟨hdefined, hblock⟩ := (Bool.and_eq_true _ _).mp htest
  obtain ⟨block, hblock, hinst⟩ := Array.any_eq_true'.mp hblock
  obtain ⟨i, hi, htest⟩ := List.any_eq_true.mp hinst
  obtain ⟨hop, hoperand⟩ := (Bool.and_eq_true _ _).mp htest
  obtain ⟨id, hid, ho⟩ := List.any_eq_true.mp hoperand
  exact ⟨p, hp, g, hg,
    by simpa using hdefined, block, hblock, i, hi, of_decide_eq_true hop, id, hid,
    operand_eq_ok.mpr (of_decide_eq_true ho)⟩

end InstSelect.Lowering
