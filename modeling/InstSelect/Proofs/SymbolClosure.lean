import InstSelect.Proofs.ExactImages

/-!
# Programs are closed under symbols

A symbol enters a program in two ways: as an operand, when code names a function or a
global, and as a relocation, when an initializer does. Both take the name from the same
function of the calling convention that decides which functions are skipped. So every
symbol of a program is the name of one of its own functions or globals, or of a runtime
routine that stands behind an intrinsic.
-/

namespace InstSelect.Machine.Program

/--
A name that a program may refer to: of a function, of a global, or of a runtime routine.
-/
def Knows (p : Program) (name : String) : Prop :=
  (∃ f ∈ p.functions, f.name = name) ∨ (∃ g ∈ p.globals, g.name = name) ∨
    ∃ r : Routine, r.symbol = name

end InstSelect.Machine.Program

namespace InstSelect.Lowering

open Machine (Image Program)

variable {g : IR.Global}

/-! ## Relocations -/

/-- A property of the symbols that functions and globals of a module go by. -/
structure Covers (m : IR.Module) (abi : Abi) (S : String → Prop) : Prop where
  function : ∀ func f name, m.function func = .ok f → abi.symbolName f.name = .ok name →
    S name
  global : ∀ global g, m.global global = .ok g → S g.name

section

variable {alloc : Machine.Allocator} {m : IR.Module} {abi : Abi} {S : String → Prop}

/-- The relocations of a global are to the symbols of functions and globals. -/
theorem imageOf_symbols {image : Image} (hS : Covers m abi S)
    (h : imageOf m abi g = .ok image) : ∀ r ∈ image.relocations, S r.symbol := by
  rintro ⟨offset, symbol⟩ hr
  obtain ⟨l, -, -, hnames⟩ := exists_right_of_forall₂ (exact_of_imageOf h).references hr
  cases hnames with
  | function _ hf hname => exact hS.function _ _ _ hf hname
  | global _ hg => exact hS.global _ _ hg

/-! ## Programs -/

/-- Operands refer to symbols with a property, whatever values code uses. -/
theorem Covers.supply (hS : Covers m abi S) :
    Supply ⟨m, abi⟩ (fun _ => True) fun o => ∀ name, o.form = .symbol name → S name where
  plain st _ form hform name hname := absurd hname (hform name)
  alike o _ form hform name hname := absurd hname (hform name)
  constant v ty k n st _ _ _ _ := nofun
  function func f name hf hname := by
    rintro _ ⟨⟩
    exact hS.function func f name hf hname
  global global g hg := by
    rintro _ ⟨⟩
    exact hS.global global g hg

theorem mem_functionIds {func : IR.FuncId} {f : IR.Function}
    (h : m.function func = .ok f) :
    func ∈ m.functionIds := by
  have hlt := (Array.getElem?_eq_some_iff.mp (IR.Module.function_eq_ok.mp h)).1
  exact List.mem_map.mpr ⟨func.index.toNat, List.mem_range.mpr hlt, by simp⟩

theorem mem_globalIds {global : IR.GlobalId} (h : m.global global = .ok g) :
    global ∈ m.globalIds := by
  have hlt := (Array.getElem?_eq_some_iff.mp (IR.Module.global_eq_ok.mp h)).1
  exact List.mem_map.mpr ⟨global.index.toNat, List.mem_range.mpr hlt, by simp⟩

variable {p : Program}

/-- A program knows the symbols of all functions and globals of its module. -/
theorem covers_of_lowerModule (h : lowerModule m abi = .ok p) : Covers m abi p.Knows := by
  obtain ⟨gs, fs, hgs, hfs, himages, hms⟩ := lowerModule_items h
  constructor
  · intro func f name hf hname
    obtain ⟨f', hmem, hf'⟩ := exists_right_of_forall₂ hfs (mem_functionIds hf)
    cases hf.symm.trans hf'
    unfold Abi.symbolName at hname
    split at hname
    · next hstem =>
      cases hname
      have hplain : f ∈ fs.filter fun f => !abi.isIntrinsic f.name :=
        List.mem_filter.mpr ⟨hmem, by simp [Abi.isIntrinsic, hstem]⟩
      obtain ⟨machine, hmachine, hemits⟩ := exists_right_of_forall₂ hms hplain
      exact .inl ⟨machine, hmachine, hemits.heads.name⟩
    · split at hname
      · next routine _ =>
        cases hname
        exact .inr (.inr ⟨routine, rfl⟩)
      · cases hname
  · intro global g hg
    obtain ⟨g', hmem, hg'⟩ := exists_right_of_forall₂ hgs (mem_globalIds hg)
    cases hg.symm.trans hg'
    obtain ⟨image, himage, heq⟩ := exists_right_of_forall₂ himages hmem
    exact .inr (.inl ⟨image, himage, imageOf_name heq⟩)

/--
Whatever the module and the convention, the symbols that operands and relocations of a
program name are its own functions and globals and the runtime routines.
-/
theorem lowerModule_symbols (h : lowerModule m abi = .ok p) :
    (∀ f ∈ p.functions, ∀ o ∈ f.operands, ∀ name, o.form = .symbol name → p.Knows name) ∧
    ∀ g ∈ p.globals, ∀ r ∈ g.relocations, p.Knows r.symbol := by
  have hcovers := covers_of_lowerModule h
  obtain ⟨gs, fs, -, -, himages, hms⟩ := lowerModule_items h
  constructor
  · intro machine hmachine
    obtain ⟨f, -, func, s, s', hf, hrun⟩ := exists_right_of_forall₂ hms.flip hmachine
    exact (fillFunction_contents hcovers.supply hf (fun _ _ => trivial)
      (fun _ _ _ form hform name hname => absurd hname (hform name)) hrun).2
  · intro image himage
    obtain ⟨g, -, hg⟩ := exists_right_of_forall₂ himages.flip himage
    exact imageOf_symbols hcovers hg

end

/--
A table of pointers to a function, to itself and to a runtime routine, and a call of that
routine.
-/
def linking : IR.Module where
  name := "m"
  values := #[⟨.ptr (.function [] .void true), .function ⟨0⟩⟩,
    ⟨.ptr (.function [] .void false), .function ⟨1⟩⟩,
    ⟨.void, .block ⟨0⟩⟩,
    ⟨.ptr (.struct none [.ptr .void, .ptr .void, .ptr .void] false), .global ⟨0⟩⟩,
    ⟨.struct none [.ptr .void, .ptr .void, .ptr .void] false,
      .constant (.aggregate [⟨1⟩, ⟨3⟩, ⟨0⟩])⟩,
    ⟨.int .w32, .constant (.int 0)⟩, ⟨.int .w64, .constant (.int 24)⟩,
    ⟨.void, .instruction ⟨0⟩⟩, ⟨.void, .instruction ⟨1⟩⟩]
  insts := #[⟨.call, [⟨0⟩, ⟨3⟩, ⟨5⟩, ⟨6⟩], .void, ⟨0⟩, ⟨7⟩⟩, ⟨.ret, [], .void, ⟨0⟩, ⟨8⟩⟩]
  blocks := #[⟨⟨1⟩, none, [⟨0⟩, ⟨1⟩], ⟨2⟩⟩]
  functions := #[⟨"__builtin_memset", ⟨[], .void, true⟩, [], [], true, ⟨0⟩⟩,
    ⟨"main", ⟨[], .void, false⟩, [], [⟨0⟩], false, ⟨1⟩⟩]
  globals := #[⟨"table", .struct none [.ptr .void, .ptr .void, .ptr .void] false,
    some ⟨4⟩, none, ⟨3⟩⟩]

theorem linking_symbols :
    ∃ p, lowerModule linking .win64 = .ok p ∧
      (∃ f ∈ p.functions, ∃ o ∈ f.operands, o.form = .symbol "memset" ∧
        p.Knows "memset") ∧
      ∃ g ∈ p.globals, g.relocations.map (·.symbol) = ["main", "table", "memset"] ∧
        ∀ r ∈ g.relocations, p.Knows r.symbol := by
  obtain ⟨p, hp, htest⟩ := exists_of_lowersTo
    (show lowersTo linking .win64 (fun p =>
      (p.functions.any fun f => f.operands.any fun o => o.form = .symbol "memset") &&
      p.globals.any fun g => g.relocations.map (·.symbol) = ["main", "table", "memset"]) =
        true by
        decide +kernel)
  obtain ⟨hoperand, hrelocations⟩ := (Bool.and_eq_true _ _).mp htest
  obtain ⟨f, hf, hoperand⟩ := List.any_eq_true.mp hoperand
  obtain ⟨o, ho, hform⟩ := Array.any_eq_true'.mp hoperand
  obtain ⟨g, hg, hsymbols⟩ := List.any_eq_true.mp hrelocations
  have hknown := lowerModule_symbols hp
  exact ⟨p, hp,
    ⟨f, hf, o, ho, of_decide_eq_true hform,
      hknown.1 f hf o ho _ (of_decide_eq_true hform)⟩, g, hg,
    of_decide_eq_true hsymbols, hknown.2 g hg⟩

end InstSelect.Lowering
