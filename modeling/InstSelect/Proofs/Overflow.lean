import InstSelect.Proofs.ArenaContents
import InstSelect.Proofs.FunctionBuilding
import InstSelect.Proofs.Layouts

/-!
# Where words are too short

Addresses, sizes and numbers of registers are words, and arithmetic on them is checked:
where the exact result is no word, the computation fails by an overflow. `NoOverflow` says
of a computation that it has no such failure.

Selection numbers its virtual registers with a word, too. That is the only arithmetic of
most steps, so that they overflow only once all registers are taken. `Costs` counts the
registers that a step may take, and says that no other word in it is too short.
-/

namespace InstSelect.Lowering

open IR (ValueId Ty)

/-! ## Computations without overflow -/

section Judgement

variable {α β : Type}

/-- No arithmetic in the computation leaves its word. -/
def NoOverflow (x : Except Failure α) : Prop :=
  ∀ operation, x ≠ .error (.overflow operation)

namespace NoOverflow

theorem ok (a : α) : NoOverflow (.ok a) := fun _ h => nomatch h

theorem violate (broken : Violation) : NoOverflow (violate broken : Except Failure α) :=
  fun _ h => nomatch h

theorem refuse (what : Unsupported) :
    NoOverflow (.error (.unsupported what) : Except Failure α) :=
  fun _ h => nomatch h

theorem require (condition : Bool) (broken : Violation) :
    NoOverflow (require condition broken) := by
  cases condition with
  | true => exact ok ()
  | false => exact violate broken

theorem ofWord {x : Except Overflow α} {a : α} (h : x = .ok a) :
    NoOverflow (Failure.ofWord x) := by
  subst h
  exact ok a

theorem ask {alloc : Machine.Allocator} (request : Machine.Request) :
    NoOverflow (Machine.Allocator.ask request) := by
  unfold Machine.Allocator.ask
  cases alloc.refusal? request with
  | none => exact ok ()
  | some cause => exact fun _ h => by cases h

theorem bind {x : Except Failure α} {f : α → Except Failure β} (hx : NoOverflow x)
    (hf : ∀ a, x = .ok a → NoOverflow (f a)) : NoOverflow (x >>= f) := by
  intro operation h
  rcases bind_eq_error.mp h with h | ⟨a, ha, h⟩
  · exact hx operation h
  · exact hf a ha operation h

end NoOverflow

theorem value_noOverflow (m : IR.Module) (v : ValueId) : NoOverflow (m.value v) := by
  unfold IR.Module.value
  split
  · exact .ok _
  · exact .violate _

theorem function_noOverflow (m : IR.Module) (f : IR.FuncId) :
    NoOverflow (m.function f) := by
  unfold IR.Module.function
  split
  · exact .ok _
  · exact .violate _

theorem global_noOverflow (m : IR.Module) (g : IR.GlobalId) :
    NoOverflow (m.global g) := by
  unfold IR.Module.global
  split
  · exact .ok _
  · exact .violate _

theorem symbolName_noOverflow (abi : Abi) (name : String) :
    NoOverflow (abi.symbolName name) := by
  unfold Abi.symbolName
  split
  · exact .ok _
  · split
    · exact .ok _
    · exact .refuse _

theorem valueTy_noOverflow (m : IR.Module) (v : ValueId) : NoOverflow (m.valueTy v) :=
  (value_noOverflow m v).bind fun _ _ => .ok _

theorem block_noOverflow (m : IR.Module) (b : IR.BlockId) : NoOverflow (m.block b) := by
  unfold IR.Module.block
  split
  · exact .ok _
  · exact .violate _

/-- The storage class of a type asks for the size of a struct. -/
theorem storageOf_noOverflow {ty : Ty} (h : ty.rounds = true) :
    NoOverflow (storageOf ty) := by
  cases ty with
  | struct name fields packed =>
    exact (NoOverflow.ofWord (IR.size_of_rounds h).1).bind fun _ _ => .ok _
  | array | function | type => exact .refuse _
  | _ => exact .ok _

end Judgement

end InstSelect.Lowering

namespace InstSelect.Machine.Function

open Lowering (NoOverflow)

variable {alloc : Allocator} (f : Function) {b : BlockId}

theorem operand_noOverflow (id : OperandId) : NoOverflow (f.operand id) := by
  unfold Function.operand
  split
  · exact .ok _
  · exact .violate _

theorem block_noOverflow (id : BlockId) : NoOverflow (f.block id) := by
  unfold Function.block
  split
  · exact .ok _
  · exact .violate _

theorem regOf_noOverflow (id : OperandId) : NoOverflow (f.regOf id) := by
  refine (f.operand_noOverflow id).bind fun o _ => ?_
  split
  · exact .ok _
  · exact .violate _

theorem pushOperand_noOverflow (form : Form) (st : Storage) :
    NoOverflow (f.pushOperand form st) :=
  (NoOverflow.require _ _).bind fun _ _ => (NoOverflow.ask _).bind fun _ _ => .ok _

theorem blockRef_noOverflow (b : BlockId) : NoOverflow (f.blockRef b) :=
  (f.block_noOverflow b).bind fun _ _ => f.pushOperand_noOverflow _ _

theorem createBlock_noOverflow (name : String) : NoOverflow (f.createBlock name) :=
  (NoOverflow.require _ _).bind fun _ _ => (NoOverflow.ask _).bind fun _ _ => .ok _

theorem appendInst_noOverflow (b : BlockId) (op : Op) (ids : List OperandId) :
    NoOverflow (f.appendInst b op ids) := by
  have hoperands : NoOverflow (ids.mapM f.operand) := by
    intro operation h
    obtain ⟨id, -, hid⟩ := exists_of_mapM_eq_error h
    exact f.operand_noOverflow id operation hid
  have hinst : NoOverflow (f.checkInst op ids) :=
    hoperands.bind fun _ _ => (NoOverflow.require _ _).bind fun _ _ => .ok _
  exact (NoOverflow.require _ _).bind fun _ _ => hinst.bind fun _ _ =>
    (f.block_noOverflow b).bind fun _ _ => (NoOverflow.ask _).bind fun _ _ => .ok _

variable {f} {g : Function} {id : OperandId}

theorem pushOperand_nextVReg {form : Form} {st : Storage}
    (h : f.pushOperand form st = .ok (id, g)) :
    g.nextVReg = f.nextVReg := by
  obtain ⟨-, -, -, rfl⟩ := pushOperand_eq_ok.mp h
  rfl

theorem blockRef_nextVReg (h : f.blockRef b = .ok (id, g)) :
    g.nextVReg = f.nextVReg := by
  obtain ⟨-, -, h⟩ := Lowering.bind_eq_ok.mp h
  exact pushOperand_nextVReg h

theorem createBlock_nextVReg {name : String} (h : f.createBlock name = .ok (b, g)) :
    g.nextVReg = f.nextVReg := by
  obtain ⟨-, -, -, rfl⟩ := createBlock_eq_ok.mp h
  rfl

theorem appendInst_nextVReg {op : Op} {ids : List OperandId}
    (h : f.appendInst b op ids = .ok g) : g.nextVReg = f.nextVReg := by
  obtain ⟨-, os, block, -, -, -, -, rfl⟩ := appendInst_eq_ok.mp h
  rfl

end InstSelect.Machine.Function

namespace InstSelect.Lowering

open IR (ValueId Constant)
open Machine (Storage OperandId Op Address Form Allocator)

variable {α β : Type} {env : Env} {s s' : State} {n k : Nat} {v : ValueId}

/-! ## Steps that take registers -/

/--
A step that takes at most `n` virtual registers, and overflows only where the function has
no `n` left.
-/
structure Costs (env : Env) (n : Nat) (x : LowerM α) : Prop where
  spends : ∀ s a s', Runs x env s a s' → s'.vregs ≤ s.vregs + n
  overflows : ∀ s operation s', Fails x env s (.overflow operation) s' →
    UInt32.size ≤ s.vregs + n

namespace Costs

variable {x : LowerM α} {f : α → LowerM β}

theorem mono (hx : Costs env k x) (h : k ≤ n) : Costs env n x where
  spends s a s' hrun := by
    have := hx.spends s a s' hrun
    omega
  overflows s operation s' hfail := by
    have := hx.overflows s operation s' hfail
    omega

theorem pure (a : α) : Costs env n (pure a) where
  spends s b s' h := by
    obtain ⟨-, rfl⟩ := runs_pure.mp h
    exact Nat.le_add_right ..
  overflows _ _ _ h := nomatch h

/-- What is computed without the state. -/
theorem check {e : Except Failure α} (he : NoOverflow e) : Costs env n (check e) where
  spends s a s' h := by
    obtain ⟨-, rfl⟩ := runs_check.mp h
    exact Nat.le_add_right ..
  overflows s operation s' h := by
    cases e with
    | ok a => cases h
    | error failure =>
      cases h
      exact absurd rfl (he operation)

/-- One step after the other, where the second may depend on what the first can answer. -/
theorem bind (hx : Costs env k x) (hf : ∀ s a s', Runs x env s a s' → Costs env n (f a)) :
    Costs env (k + n) (x >>= f) where
  spends s b s' h := by
    obtain ⟨a, t, ha, hb⟩ := runs_bind.mp h
    have := hx.spends s a t ha
    have := (hf s a t ha).spends t b s' hb
    omega
  overflows s operation s' h := by
    rcases fails_bind.mp h with h | ⟨a, t, ha, h⟩
    · have := hx.overflows s operation s' h
      omega
    · have := hx.spends s a t ha
      have := (hf s a t ha).overflows t operation s' h
      omega

theorem seq (hx : Costs env k x) (hf : ∀ a, Costs env n (f a)) :
    Costs env (k + n) (x >>= f) :=
  hx.bind fun _ a _ _ => hf a

/-- A step that takes no register, and what comes after it. -/
theorem after (hx : Costs env 0 x) (hf : ∀ a, Costs env n (f a)) :
    Costs env n (x >>= f) :=
  (hx.seq hf).mono (by omega)

/-- A step, and what comes after it without a register. -/
theorem before (hx : Costs env n x) (hf : ∀ a, Costs env 0 (f a)) :
    Costs env n (x >>= f) := hx.seq hf

theorem ofModule {f : IR.Module → LowerM β} (h : Costs env n (f env.module)) :
    Costs env n (sourceModule >>= f) :=
  ⟨h.spends, h.overflows⟩

theorem ofCheck {e : Except Failure α} (he : NoOverflow e)
    (hf : ∀ a, e = .ok a → Costs env n (f a)) :
    Costs env n (Lowering.check e >>= f) := by
  have hcheck : Costs env 0 (Lowering.check e) := check he
  exact (hcheck.bind fun s a s' ha => hf a (runs_check.mp ha).1).mono (by omega)

theorem get : Costs env 0 get where
  spends s a s' h := by
    obtain ⟨-, rfl⟩ := runs_get.mp h
    exact Nat.le_refl _
  overflows _ _ _ h := nomatch h

theorem modify {change : State → State} (h : ∀ s, (change s).vregs = s.vregs) :
    Costs env 0 (modify change) where
  spends s a s' hrun := by
    rw [runs_modify.mp hrun, h]
    exact Nat.le_refl _
  overflows _ _ _ h := nomatch h

theorem current : Costs env 0 current := by
  refine get.after fun s => ?_
  split
  · exact .pure _
  · exact .check (.violate _)

theorem machine : Costs env 0 machine := current.after fun _ => .pure _

theorem violateIn (broken : String → Violation) :
    Costs env n (violateIn broken : LowerM α) :=
  machine.after fun _ => .check (.violate _)

/-- An operation on the function being built. -/
theorem build
    {operation : [Allocator] → Machine.Function → Except Failure (α × Machine.Function)}
    (hspends : ∀ [Allocator] f a g, operation f = .ok (a, g) →
      g.nextVReg.toNat ≤ f.nextVReg.toNat + n)
    (hoverflows : ∀ [Allocator] f o, operation f = .error (.overflow o) →
      UInt32.size ≤ f.nextVReg.toNat + n) :
    Costs env n (build operation) where
  spends s a s' h := by
    obtain ⟨c, g, hc, hg, rfl⟩ := runs_build.mp h
    rw [State.vregs_eq hc]
    exact @hspends env.allocator c.machine a g hg
  overflows s o s' h := by
    rcases fails_bind.mp h with h | ⟨c, t, hc, h⟩
    · have := current.overflows s o s' h
      omega
    · obtain ⟨hcurrent, rfl⟩ := runs_current.mp hc
      change Fails (Lowering.check (@operation env.allocator c.machine) >>= _) env s
        _ s' at h
      rcases fails_bind.mp h with h | ⟨a, t, -, h⟩
      · rw [State.vregs_eq hcurrent]
        apply @hoverflows env.allocator c.machine o
        cases hop : @operation env.allocator c.machine with
        | ok a =>
          rw [hop] at h
          cases h
        | error e =>
          rw [hop] at h
          cases h
          rfl
      · cases h

/-- An operation that takes no register. -/
theorem ofSame
    {operation : [Allocator] → Machine.Function → Except Failure (α × Machine.Function)}
    (hno : ∀ [Allocator] f, NoOverflow (operation f))
    (hsame : ∀ [Allocator] {f a g}, operation f = .ok (a, g) → g.nextVReg = f.nextVReg) :
    Costs env 0 (Lowering.build operation) :=
  build (fun f a g h => by rw [hsame h]; exact Nat.le_refl _)
    (fun f o h => absurd h (hno f o))

end Costs

/-! ## Elementary steps -/

theorem push_costs (form : Form) (st : Storage) :
    Costs env 0 (build (·.pushOperand form st)) :=
  .ofSame (fun f => f.pushOperand_noOverflow form st)
    Machine.Function.pushOperand_nextVReg

/-- Numbering registers is what overflows. -/
theorem newVReg_costs (st : Storage) : Costs env 1 (newVReg st) := by
  have htake : Costs env 1 (build (·.takeVReg)) := by
    refine .build (fun f a g h => ?_) fun f o h => ?_
    · obtain ⟨-, -, rfl⟩ := Machine.Function.takeVReg_eq_ok.mp h
      show (f.nextVReg + 1).toNat ≤ _
      rw [UInt32.toNat_add]
      exact Nat.mod_le ..
    · rcases bind_eq_error.mp h with h | ⟨next, -, h⟩
      · unfold Word.addU32 at h
        split at h
        · cases h
        · next hle => exact Nat.le_of_not_lt hle
      · cases h
  exact htake.before fun reg => push_costs (.virt reg) st

theorem imm_costs (c : Int64) (st : Storage) : Costs env 0 (imm c st) := push_costs _ _

theorem mem_costs (a : Address) (st : Storage) : Costs env 0 (mem a st) := push_costs _ _

theorem symbol_costs (name : String) : Costs env 0 (symbol name) := push_costs _ _

theorem insertionBlock_costs : Costs env 0 insertionBlock := by
  refine Costs.get.after fun s => ?_
  split
  · exact .pure _
  · exact .violateIn _

theorem emit_costs (op : Op) (ids : List OperandId) : Costs env 0 (emit op ids) := by
  refine insertionBlock_costs.after fun b => .ofSame (fun f => ?_) fun {_ f a g} h => ?_
  · exact (f.appendInst_noOverflow b op ids).bind fun _ _ => .ok _
  · obtain ⟨g', hg, h⟩ := bind_eq_ok.mp h
    cases h
    exact Machine.Function.appendInst_nextVReg hg

theorem operand_costs (id : OperandId) : Costs env 0 (operand id) :=
  Costs.machine.after fun f => .check (f.operand_noOverflow id)

theorem storage_costs (id : OperandId) : Costs env 0 (storage id) :=
  (operand_costs id).after fun _ => .pure _

theorem regOf_costs (id : OperandId) : Costs env 0 (regOf id) :=
  Costs.machine.after fun f => .check (f.regOf_noOverflow id)

theorem lookupValue_costs (v : ValueId) : Costs env 0 (lookupValue v) :=
  Costs.get.after fun _ => .pure _

theorem bindValue_costs (v : ValueId) (id : OperandId) :
    Costs env 0 (bindValue v id) := by
  refine (lookupValue_costs v).after fun found => ?_
  cases found with
  | none => exact .modify fun s => rfl
  | some _ => exact .violateIn _

theorem blockFor_costs (b : IR.BlockId) : Costs env 0 (blockFor b) := by
  refine Costs.get.after fun s => ?_
  split
  · exact .pure _
  · refine .ofModule (.ofCheck (block_noOverflow _ b) fun data _ =>
      Costs.get.after fun s => ?_)
    split
    · split
      · have hcreate : ∀ name, Costs env 0 (build (·.createBlock name)) := fun name =>
          .ofSame (fun f => f.createBlock_noOverflow name)
            Machine.Function.createBlock_nextVReg
        refine (hcreate _).after fun id => Costs.after (.modify ?_) fun _ => .pure id
        intro s
        rfl
      · exact .violateIn _
    · exact .violateIn _

/-! ## Operands of values -/

/-- The type of a value, if it is known, has a layout. -/
def Rounded (m : IR.Module) (v : ValueId) : Prop := ∀ ty, m.valueTy v = .ok ty →
    ty.rounds = true

theorem constantOperand_costs (hv : Rounded env.module v) (c : Constant) :
    Costs env 0 (constantOperand v c) := by
  refine .ofModule (.ofCheck (valueTy_noOverflow _ v) fun ty hty => ?_)
  refine .ofCheck (storageOf_noOverflow (hv ty hty)) fun st _ => ?_
  cases c with
  | int | null | zero | undef => exact imm_costs _ _
  | float | bytes | aggregate => exact .check (.refuse _)

theorem argumentOperand_costs (v : ValueId) (func : IR.FuncId) (index : UInt32) :
    Costs env 0 (argumentOperand v func index) := by
  refine Costs.get.after fun s => ?_
  split
  · split
    · split
      · exact .pure _
      · exact .violateIn _
    · exact .violateIn _
  · exact .violateIn _

theorem freshOperand_costs (hv : Rounded env.module v) :
    Costs env 0 (freshOperand v) := by
  refine .ofModule (.ofCheck (value_noOverflow _ v) fun data _ => ?_)
  split
  · exact .violateIn _
  · exact argumentOperand_costs _ _ _
  · exact constantOperand_costs hv _
  · refine .ofCheck (function_noOverflow _ _) fun f _ => ?_
    have habi : Costs env 0 theAbi :=
      ⟨fun s a s' h => by cases h; exact Nat.le_refl _, fun _ _ _ h => nomatch h⟩
    exact habi.after fun abi => .ofCheck (symbolName_noOverflow abi f.name) fun name _ =>
      symbol_costs name
  · exact .ofCheck (global_noOverflow _ _) fun g _ => symbol_costs g.name
  · refine (blockFor_costs _).after fun id => ?_
    exact .ofSame (fun f => f.blockRef_noOverflow id) Machine.Function.blockRef_nextVReg

theorem resolve_costs (hv : Rounded env.module v) : Costs env 0 (resolve v) := by
  refine (lookupValue_costs v).after fun found => ?_
  cases found with
  | some id => exact .pure id
  | none =>
    exact (freshOperand_costs hv).after fun id =>
      (bindValue_costs v id).after fun _ => .pure id

theorem copyToVReg_costs (src : OperandId) : Costs env 1 (copyToVReg src) := by
  refine (operand_costs src).after fun o => (newVReg_costs _).before fun dst => ?_
  have hcopy : Costs env 0 (copyOp src) := (operand_costs src).after fun _ => .pure _
  exact (hcopy.after fun op => emit_costs op _).after fun _ => .pure dst

theorem intoRegister_costs (id : OperandId) : Costs env 1 (intoRegister id) := by
  refine (operand_costs id).after fun o => ?_
  split
  · exact .pure id
  · exact copyToVReg_costs id

theorem valueOperand_costs (hv : Rounded env.module v) :
    Costs env 1 (valueOperand v) := by
  refine (resolve_costs hv).after fun id => (operand_costs id).after fun o => ?_
  split
  · exact (newVReg_costs .ptr).before fun dst => (emit_costs .lea _).after fun _ =>
      .pure dst
  · exact .pure id

theorem addressRegister_costs (hv : Rounded env.module v) :
    Costs env 2 (addressRegister v) :=
  (valueOperand_costs hv).seq fun id => intoRegister_costs id

end InstSelect.Lowering
