import InstSelect.Machine.Program
import InstSelect.Proofs.FunctionBuilding

/-!
# Sealed functions

Sealing ends the construction of a machine function, and a program takes sealed functions
only. Every operation on a function checks that it is still open, at a depth of its own,
except for one: a reservation of stack for outgoing arguments is recorded without a check.
So a sealed function is final but for its reservation, which can still be raised until a
program takes the function.
-/

namespace InstSelect.Machine

open Lowering
  (bind_eq_ok bind_eq_error pure_eq_ok require_eq_ok ask_eq_ok yields exists_of_yields)

/-! ## Ways to fail -/

section Failures

variable {α β : Type}

/-- All failures of a computation end the session it is part of. -/
def NeverRefuses (x : Except Failure α) : Prop := ∀ e, x = .error e → e.isRefusal = false

/-- The computation fails, in a way that ends the session it is part of. -/
def Breaks (x : Except Failure α) : Prop := ∃ e, x = .error e ∧ e.isRefusal = false

namespace NeverRefuses

theorem ok (a : α) : NeverRefuses (.ok a) := fun _ h => nomatch h

theorem violate (broken : Violation) :
    NeverRefuses (violate broken : Except Failure α) := by
  rintro e ⟨⟩
  rfl

theorem require (condition : Bool) (broken : Violation) :
    NeverRefuses (require condition broken) := by
  cases condition with
  | true => exact ok ()
  | false => exact violate broken

theorem count (x : Except Overflow α) (f : α → β) :
    NeverRefuses (Failure.ofWord x >>= fun a => pure (f a)) := by
  cases x with
  | ok a => exact ok _
  | error operation =>
    rintro e ⟨⟩
    rfl

theorem bind {x : Except Failure α} {f : α → Except Failure β} (hx : NeverRefuses x)
    (hf : ∀ a, x = .ok a → NeverRefuses (f a)) : NeverRefuses (x >>= f) := by
  intro e he
  rcases bind_eq_error.mp he with h | ⟨a, ha, h⟩
  · exact hx e h
  · exact hf a ha e h

theorem map {x : Except Failure α} (hx : NeverRefuses x) (f : α → β) :
    NeverRefuses (f <$> x) :=
  hx.bind fun a _ => ok (f a)

end NeverRefuses

end Failures

namespace Function

variable {f : Function}

/--
On a sealed function, nothing comes after the check that it is open: no memory is asked
for.
-/
theorem checkOpen_neverRefuses {α : Type} (hf : f.isSealed = true)
    (rest : Unit → Except Failure α) :
    NeverRefuses (f.checkOpen >>= rest) :=
  (NeverRefuses.require _ _).bind fun _ hopen =>
    absurd (checkOpen_eq_ok.mp hopen) (hf ▸ Bool.noConfusion)

theorem block_neverRefuses (f : Function) (id : BlockId) : NeverRefuses (f.block id) := by
  unfold Function.block
  split
  · exact .ok _
  · exact .violate _

end Function

/-! ## One operation -/

section Operations

variable {alloc : Allocator} {f g : Function} {action : Action}

/-- On a sealed function, an operation that fails breaks off. -/
theorem Action.neverRefuses (hf : f.isSealed = true) (action : Action) :
    NeverRefuses (action.apply f) := by
  cases action with
  | newVReg storage =>
    refine (NeverRefuses.bind (.count _ _) fun r htake => ?_).map _
    obtain ⟨_, g⟩ := r
    obtain ⟨-, -, rfl⟩ := Function.takeVReg_eq_ok.mp htake
    exact Function.checkOpen_neverRefuses hf _
  | stackSlot size align =>
    refine (NeverRefuses.bind (.count _ _) fun r htake => ?_).map _
    obtain ⟨_, g⟩ := r
    obtain ⟨-, -, rfl⟩ := Function.takeSlot_eq_ok.mp htake
    exact Function.checkOpen_neverRefuses hf _
  | physReg | symbol | imm | mem | createBlock =>
    exact (Function.checkOpen_neverRefuses hf _).map _
  | blockRef block =>
    exact ((f.block_neverRefuses block).bind fun _ _ =>
      Function.checkOpen_neverRefuses hf _).map _
  | setArgs | appendBlock | appendInst | insertBeforeTerminator | finish =>
    exact Function.checkOpen_neverRefuses hf _
  | reserveCallStack bytes => exact .ok _

/--
What a successful operation found and left: only reservations do not look at the seal.
-/
def Action.Seals (f g : Function) (action : Action) : Prop :=
  (f.isSealed = false ∧ (g.isSealed = true ↔ action = .finish)) ∨
    ∃ bytes, action = .reserveCallStack bytes ∧ g = f.reserveCallStack bytes

theorem Action.Seals.of_open (hopen : f.isSealed = false)
    (hsame : g.isSealed = f.isSealed) (hne : action ≠ .finish) : action.Seals f g :=
  .inl ⟨hopen, iff_of_false (by rw [hsame, hopen]; exact Bool.false_ne_true) hne⟩

theorem Action.Seals.of_pushOperand {form : Form} {storage : Storage}
    (hne : action ≠ .finish)
    (h : Prod.snd <$> f.pushOperand form storage = .ok g) : action.Seals f g := by
  obtain ⟨id, hpush⟩ := map_snd_eq_ok.mp h
  obtain ⟨hopen, -, -, rfl⟩ := Function.pushOperand_eq_ok.mp hpush
  exact .of_open hopen rfl hne

theorem Action.seals (h : action.apply f = .ok g) : action.Seals f g := by
  cases action with
  | newVReg storage =>
    obtain ⟨id, h⟩ := map_snd_eq_ok.mp h
    obtain ⟨hopen, -, -, -, rfl⟩ := Function.newVReg_eq_ok.mp h
    exact .of_open hopen rfl nofun
  | stackSlot size align =>
    obtain ⟨id, h⟩ := map_snd_eq_ok.mp h
    obtain ⟨hopen, -, -, -, rfl⟩ := Function.stackSlot_eq_ok.mp h
    exact .of_open hopen rfl nofun
  | physReg reg storage | symbol name storage | imm value storage =>
    exact .of_pushOperand nofun h
  | mem address storage => exact .of_pushOperand nofun h
  | blockRef block =>
    obtain ⟨id, h⟩ := map_snd_eq_ok.mp h
    obtain ⟨-, hopen, -, -, rfl⟩ := Function.blockRef_eq_ok.mp h
    exact .of_open hopen rfl nofun
  | setArgs args =>
    obtain ⟨_, hopen, h⟩ := bind_eq_ok.mp h
    cases pure_eq_ok.mp h
    exact .of_open (Function.checkOpen_eq_ok.mp hopen) rfl nofun
  | createBlock name =>
    obtain ⟨id, h⟩ := map_snd_eq_ok.mp h
    obtain ⟨hopen, -, -, rfl⟩ := Function.createBlock_eq_ok.mp h
    exact .of_open hopen rfl nofun
  | appendBlock block =>
    obtain ⟨hopen, -, -, -, rfl⟩ := Function.appendBlock_eq_ok.mp h
    exact .of_open hopen rfl nofun
  | appendInst block op operands =>
    obtain ⟨hopen, os, b, -, -, -, -, rfl⟩ := Function.appendInst_eq_ok.mp h
    exact .of_open hopen rfl nofun
  | insertBeforeTerminator block op operands =>
    obtain ⟨hopen, os, b, -, -, -, -, rfl⟩ := Function.insertBeforeTerminator_eq_ok.mp h
    exact .of_open hopen rfl nofun
  | reserveCallStack bytes =>
    cases h
    exact .inr ⟨bytes, rfl, rfl⟩
  | finish =>
    obtain ⟨_, hopen, h⟩ := bind_eq_ok.mp h
    cases pure_eq_ok.mp h
    exact .inl ⟨Function.checkOpen_eq_ok.mp hopen, iff_of_true rfl rfl⟩

theorem Action.reserves_of_sealed (hf : f.isSealed = true) (h : action.apply f = .ok g) :
    ∃ bytes, action = .reserveCallStack bytes ∧ g = f.reserveCallStack bytes := by
  rcases Action.seals h with ⟨hopen, -⟩ | hreserves
  · exact absurd (hf.symm.trans hopen) Bool.noConfusion
  · exact hreserves

theorem Action.isSealed_iff (h : action.apply f = .ok g) :
    g.isSealed = true ↔ f.isSealed = true ∨ action = .finish := by
  rcases Action.seals h with ⟨hopen, hg⟩ | ⟨bytes, rfl, rfl⟩
  · rw [hg, hopen]
    exact (or_iff_right Bool.false_ne_true).symm
  · exact (or_iff_left nofun).symm

theorem Function.le_reserveCallStack (f : Function) (bytes : UInt32) :
    bytes ≤ (f.reserveCallStack bytes).maxCallStack := by
  show bytes ≤ if f.maxCallStack ≤ bytes then bytes else f.maxCallStack
  split
  · exact UInt32.le_refl bytes
  · next hlt => exact UInt32.le_of_lt (UInt32.not_le.mp hlt)

theorem Function.reserveCallStack_eq_self {bytes : UInt32} :
    f.reserveCallStack bytes = f ↔ bytes ≤ f.maxCallStack := by
  constructor
  · intro h
    have hle := f.le_reserveCallStack bytes
    rwa [h] at hle
  · intro hle
    have hmax : max f.maxCallStack bytes = f.maxCallStack := by
      show (if f.maxCallStack ≤ bytes then bytes else f.maxCallStack) = f.maxCallStack
      split
      · next hge => exact UInt32.le_antisymm hle hge
      · rfl
    rw [Function.reserveCallStack, hmax]

/-- On a sealed function, all but a higher reservation breaks off or does nothing. -/
theorem Action.breaks_or_keeps (hf : f.isSealed = true) (action : Action) :
    (Breaks (action.apply f) ∨ action.apply f = .ok f) ↔
      ∀ bytes, action = .reserveCallStack bytes → bytes ≤ f.maxCallStack := by
  constructor
  · rintro h bytes rfl
    rcases h with ⟨e, he, -⟩ | hsame
    · cases he
    · exact Function.reserveCallStack_eq_self.mp (Except.ok.inj hsame)
  · intro hle
    cases h : action.apply f with
    | error e => exact .inl ⟨e, rfl, action.neverRefuses hf e h⟩
    | ok g =>
      obtain ⟨bytes, rfl, rfl⟩ := Action.reserves_of_sealed hf h
      exact .inr (congrArg Except.ok
        (Function.reserveCallStack_eq_self.mpr (hle bytes rfl)))

end Operations

/-! ## Sequences of operations -/

section Runs

variable {alloc : Allocator} {f g : Function} {actions : List Action}

theorem perform_cons {action : Action} :
    f.perform (action :: actions) = .ok g ↔
      ∃ f', action.apply f = .ok f' ∧ f'.perform actions = .ok g := by
  rw [Function.perform, List.foldlM_cons]
  exact bind_eq_ok

/-- A function is sealed once it was finished, and stays so. -/
theorem isSealed_iff_of_perform (h : f.perform actions = .ok g) :
    g.isSealed = true ↔ f.isSealed = true ∨ .finish ∈ actions := by
  induction actions generalizing f with
  | nil =>
    cases h
    exact (or_iff_left List.not_mem_nil).symm
  | cons action actions ih =>
    obtain ⟨f', hstep, hrest⟩ := perform_cons.mp h
    rw [ih hrest, Action.isSealed_iff hstep, List.mem_cons, or_assoc, @eq_comm _ action]

/-- After the seal only the reservation changes, to one that covers all that were made. -/
theorem perform_of_sealed (hf : f.isSealed = true) (h : f.perform actions = .ok g) :
    g = { f with maxCallStack := g.maxCallStack } ∧ f.maxCallStack ≤ g.maxCallStack ∧
      ∀ bytes, .reserveCallStack bytes ∈ actions → bytes ≤ g.maxCallStack := by
  induction actions generalizing f with
  | nil =>
    cases h
    exact ⟨rfl, UInt32.le_refl _, nofun⟩
  | cons action actions ih =>
    obtain ⟨f', hstep, hrest⟩ := perform_cons.mp h
    obtain ⟨bytes, rfl, rfl⟩ := Action.reserves_of_sealed hf hstep
    obtain ⟨hg, hgrows, hcovers⟩ := ih (f := f.reserveCallStack bytes) hf hrest
    refine ⟨hg, UInt32.le_trans (Change.reserved bytes).develops.callStack hgrows,
      fun bytes' hmem => ?_⟩
    rcases List.mem_cons.mp hmem with heq | hmem
    · cases heq
      exact UInt32.le_trans (f.le_reserveCallStack bytes) hgrows
    · exact hcovers bytes' hmem

/-- Reservations that are covered already change nothing. -/
theorem perform_eq_self (hf : f.isSealed = true) (h : f.perform actions = .ok g)
    (hcovered : ∀ bytes, .reserveCallStack bytes ∈ actions → bytes ≤ f.maxCallStack) :
    g = f := by
  induction actions with
  | nil =>
    cases h
    rfl
  | cons action actions ih =>
    obtain ⟨f', hstep, hrest⟩ := perform_cons.mp h
    obtain ⟨bytes, rfl, rfl⟩ := Action.reserves_of_sealed hf hstep
    rw [Function.reserveCallStack_eq_self.mpr
      (hcovered bytes List.mem_cons_self)] at hrest
    exact ih hrest fun bytes' hmem => hcovered bytes' (List.mem_cons_of_mem _ hmem)

end Runs

/-! ## Programs -/

/-- What a program is built from. -/
inductive Part
  | global (image : Image)
  | function (f : Function)

def Part.add [Allocator] (p : Program) : Part → Except Failure Program
  | global image => p.finishGlobal image
  | function f => Prod.snd <$> p.pushFunction f

def Program.extend [Allocator] (p : Program) (parts : List Part) :
    Except Failure Program :=
  parts.foldlM Part.add p

namespace Program

variable {alloc : Allocator} {p p' : Program} {f : Function} {parts : List Part}

theorem pushFunction_eq_ok {id : FuncId} :
    p.pushFunction f = .ok (id, p') ↔
      f.isSealed = true ∧ alloc.refusal? .function = none ∧
        id = ⟨UInt32.ofNat p.functions.length⟩ ∧
        p' = { p with functions := p.functions ++ [f] } := by
  simp only [pushFunction, bind_eq_ok, require_eq_ok, ask_eq_ok, pure_eq_ok,
    Prod.mk.injEq]
  constructor
  · rintro ⟨_, hsealed, _, hgrant, rfl, rfl⟩
    exact ⟨hsealed, hgrant, rfl, rfl⟩
  · rintro ⟨hsealed, hgrant, rfl, rfl⟩
    exact ⟨(), hsealed, (), hgrant, rfl, rfl⟩

theorem exists_pushFunction :
    (∃ r, p.pushFunction f = .ok r) ↔
      f.isSealed = true ∧ alloc.refusal? .function = none := by
  constructor
  · rintro ⟨⟨id, p'⟩, h⟩
    obtain ⟨hsealed, hgrant, -⟩ := pushFunction_eq_ok.mp h
    exact ⟨hsealed, hgrant⟩
  · rintro ⟨hsealed, hgrant⟩
    exact ⟨(_, _), pushFunction_eq_ok.mpr ⟨hsealed, hgrant, rfl, rfl⟩⟩

/-- Programs keep the functions that they took. -/
theorem functions_of_extend (h : p.extend parts = .ok p') :
    p.functions <+: p'.functions := by
  induction parts generalizing p with
  | nil =>
    cases h
    exact List.prefix_refl _
  | cons part parts ih =>
    rw [extend, List.foldlM_cons] at h
    obtain ⟨q, hstep, hrest⟩ := bind_eq_ok.mp h
    cases part with
    | global image =>
      obtain ⟨_, -, hpush⟩ := bind_eq_ok.mp hstep
      cases pure_eq_ok.mp hpush
      exact ih (p := p.pushGlobal image) hrest
    | function f =>
      obtain ⟨id, hpush⟩ := map_snd_eq_ok.mp hstep
      obtain ⟨-, -, -, rfl⟩ := pushFunction_eq_ok.mp hpush
      exact (List.prefix_append _ _).trans (ih hrest)

/-- A function stays what it was when a program took it. -/
theorem getElem?_of_extend (h : p.extend (.function f :: parts) = .ok p') :
    p'.functions[p.functions.length]? = some f := by
  rw [extend, List.foldlM_cons] at h
  obtain ⟨q, hstep, hrest⟩ := bind_eq_ok.mp h
  obtain ⟨id, hpush⟩ := map_snd_eq_ok.mp hstep
  obtain ⟨-, -, -, rfl⟩ := pushFunction_eq_ok.mp hpush
  obtain ⟨rest, hfunctions⟩ := functions_of_extend hrest
  rw [← hfunctions, List.append_assoc, List.getElem?_append_right (Nat.le_refl _),
    Nat.sub_self]
  rfl

end Program

/--
After every sequence of operations on a new function, a program that has memory for it
takes it exactly if it was finished. From then on each operation breaks off or leaves the
function as it is, exactly if it is not a reservation of more stack than is reserved;
further sequences of operations change at most the reservation; and in a program the
function stays what it was when it was taken.
-/
theorem perform_after_finish {alloc : Allocator} {name : String} {ret : Storage}
    {argTypes : List Storage} {flags : Flags} {past : List Action} {f : Function}
    (hpast : (Function.new name ret argTypes flags).perform past = .ok f) :
    (∀ p : Program,
      (∃ r, p.pushFunction f = .ok r) ↔
        .finish ∈ past ∧ alloc.refusal? .function = none) ∧
      (.finish ∈ past →
        (∀ action : Action, (Breaks (action.apply f) ∨ action.apply f = .ok f) ↔
          ∀ bytes, action = .reserveCallStack bytes → bytes ≤ f.maxCallStack) ∧
        (∀ future g, f.perform future = .ok g →
          g = { f with maxCallStack := g.maxCallStack } ∧
            (g = f ↔ ∀ bytes, .reserveCallStack bytes ∈ future →
              bytes ≤ f.maxCallStack)) ∧
        ∀ (p p' : Program) (parts : List Part), p.extend (.function f :: parts) = .ok p' →
          p'.functions[p.functions.length]? = some f) := by
  have hsealed : f.isSealed = true ↔ .finish ∈ past :=
    (isSealed_iff_of_perform hpast).trans (or_iff_right Bool.false_ne_true)
  refine ⟨fun p => Program.exists_pushFunction.trans (and_congr hsealed Iff.rfl),
    fun hfinish => ?_⟩
  have hf := hsealed.mpr hfinish
  refine ⟨Action.breaks_or_keeps hf, fun future g hg => ?_,
    fun p p' parts => Program.getElem?_of_extend⟩
  obtain ⟨hchange, -, hcovers⟩ := perform_of_sealed hf hg
  refine ⟨hchange, fun hsame => ?_, perform_eq_self hf hg⟩
  rwa [hsame] at hcovers

/-- The function of the copy above, sealed. -/
def sealing : List Action := jumping ++ copying ++ [.finish]

/--
With 32 bytes reserved before the seal, 16 more bytes change nothing and a new operand
breaks off.
-/
theorem sealing_final :
    ∃ f, (Function.new "f" .i32 [] ⟨false, false⟩).perform sealing = .ok f ∧
      f.maxCallStack = 32 ∧
      (∃ r, (Program.empty "m").pushFunction f = .ok r) ∧
      f.perform [.reserveCallStack 16, .reserveCallStack 32] = .ok f ∧
        Breaks (Action.apply f (.imm 1 .i32)) := by
  obtain ⟨f, hf, htest⟩ := exists_of_yields
    (show yields ((Function.new "f" .i32 [] ⟨false, false⟩).perform sealing) (fun f =>
      f.maxCallStack = 32 ∧
        yields (f.perform [.reserveCallStack 16, .reserveCallStack 32]) (fun _ => true) ∧
        yields (Action.apply f (.imm 1 .i32)) (fun _ => true) = false) =
        true by decide +kernel)
  obtain ⟨hmax, hruns, hfails⟩ := of_decide_eq_true htest
  obtain ⟨htaken, hfinal⟩ := perform_after_finish hf
  have hfinish : .finish ∈ sealing := List.mem_append_right _ List.mem_cons_self
  obtain ⟨hone, hmany, -⟩ := hfinal hfinish
  obtain ⟨g, hg, -⟩ := exists_of_yields hruns
  have hsame : g = f := by
    refine (hmany _ g hg).2.mpr fun bytes hmem => ?_
    rw [hmax]
    rcases List.mem_cons.mp hmem with heq | hmem
    · cases heq
      decide
    · cases List.mem_singleton.mp hmem
      decide
  refine ⟨f, hf, hmax, (htaken _).mpr ⟨hfinish, rfl⟩, hsame ▸ hg, ?_⟩
  rcases (hone (.imm 1 .i32)).mpr nofun with hbreaks | hkeeps
  · exact hbreaks
  · rw [hkeeps] at hfails
    cases hfails

/-- The seal does not stop a first reservation: the function changes after it. -/
theorem reserve_after_finish :
    ∃ f g, (Function.new "f" .i32 [] ⟨false, false⟩).perform [.finish] = .ok f ∧
      Action.apply f (.reserveCallStack 64) = .ok g ∧ f.maxCallStack = 0 ∧
        g.maxCallStack = 64 ∧ g ≠ f :=
  ⟨_, _, rfl, rfl, rfl, rfl, by decide⟩

end InstSelect.Machine
