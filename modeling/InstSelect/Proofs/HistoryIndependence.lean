import InstSelect.Proofs.Routines

/-!
# Lowering a function does not depend on the past

A session carries two kinds of state: the program written so far, and the function being
built with its values, blocks and phis. The second kind is forgotten when a function
begins, and the first is neither read nor changed until the function is closed. So what
becomes of a function does not depend on what the session did before, also where an
earlier lowering was abandoned half-way.
-/

namespace InstSelect.Lowering

open IR (ValueId InstId Inst)
open Machine (Storage OperandId Op Program Allocator)

variable {α : Type}

abbrev Outcome (α : Type) := EStateM.Result Failure State α

/-- The session with another program behind it. -/
def State.over (s : State) (p : Program) (fs : Bindings IR.FuncId Machine.FuncId) :
    State :=
  { s with output := p, functions := fs }

/-- The outcome with another program behind it. -/
def Outcome.over {α : Type} (r : Outcome α) (p : Program)
    (fs : Bindings IR.FuncId Machine.FuncId) :
    Outcome α :=
  match r with
  | .ok a s => .ok a (s.over p fs)
  | .error e s => .error e (s.over p fs)

/-- A step that neither reads nor changes the program written so far. -/
def Local {α : Type} (x : LowerM α) : Prop :=
  ∀ (env : Env) (s : State) (p : Program) (fs : Bindings IR.FuncId Machine.FuncId),
    x env (s.over p fs) = Outcome.over (x env s) p fs

namespace Local

variable {α β : Type} {x : LowerM α} {k : α → LowerM β}

/-! ## Composition -/

theorem pure (a : α) : Local (pure a) := fun _ _ _ _ => rfl

theorem throw (e : Failure) : Local (throw e : LowerM α) := fun _ _ _ _ => rfl

theorem bind (hx : Local x) (hk : ∀ a, Local (k a)) : Local (x >>= k) := by
  intro env s p fs
  simp only [Bind.bind, ReaderT.bind, EStateM.bind, hx env s p fs]
  cases x env s with
  | ok a t => exact hk a env t p fs
  | error e t => rfl

/-- A step may look at all parts of the state but the program. -/
theorem reads {k : State → LowerM β} (hk : ∀ s, Local (k s))
    (hblind : ∀ s p fs, k (s.over p fs) = k s) : Local (get >>= k) := by
  intro env s p fs
  show k (s.over p fs) env (s.over p fs) = _
  rw [hblind]
  exact hk s env s p fs

theorem modify {f : State → State} (hf : ∀ s p fs, f (s.over p fs) = (f s).over p fs) :
    Local (modify f) := by
  intro env s p fs
  show EStateM.Result.ok () (f (s.over p fs)) = .ok () ((f s).over p fs)
  rw [hf]

theorem ite {c : Prop} [Decidable c] {y : LowerM α} (hx : Local x) (hy : Local y) :
    Local (if c then x else y) := by
  split
  · exact hx
  · exact hy

theorem check (e : Except Failure α) : Local (check e) := by
  cases e with
  | ok a => exact pure a
  | error f => exact throw f

theorem sourceModule : Local sourceModule := fun _ _ _ _ => rfl

theorem theAbi : Local theAbi := fun _ _ _ _ => rfl

theorem theAllocator : Local theAllocator := fun _ _ _ _ => rfl

theorem forM {f : α → LowerM Unit} (xs : List α) (hf : ∀ a, Local (f a)) :
    Local (xs.forM f) := by
  induction xs with
  | nil => exact pure _
  | cons a xs ih => exact (hf a).bind fun _ => ih

theorem foldlM {f : β → α → LowerM β} (xs : List α) (b : β) (hf : ∀ b a, Local (f b a)) :
    Local (xs.foldlM f b) := by
  induction xs generalizing b with
  | nil => exact pure _
  | cons a xs ih =>
    rw [List.foldlM_cons]
    exact (hf b a).bind fun c => ih c

end Local

/-! ## Steps on the function being built -/

theorem current_local : Local current := by
  refine .reads (fun s => ?_) fun _ _ _ => rfl
  cases s.current with
  | some c => exact .pure c
  | none => exact .check _

theorem machine_local : Local machine := current_local.bind fun _ => .pure _

theorem violateIn_local (broken : String → Violation) :
    Local (violateIn broken : LowerM α) :=
  machine_local.bind fun _ => .check _

theorem build_local
    {operation : [Allocator] → Machine.Function → Except Failure (α × Machine.Function)} :
    Local (build operation) :=
  current_local.bind fun _ => Local.theAllocator.bind fun _ =>
    (Local.check _).bind fun _ =>
    (Local.modify fun _ _ _ => rfl).bind fun _ => .pure _

theorem change_local
    {operation : [Allocator] → Machine.Function → Except Failure Machine.Function} :
    Local (change operation) := build_local

theorem insertionBlock_local : Local insertionBlock := by
  refine .reads (fun s => ?_) fun ⟨_, _, _, _, _, c⟩ _ _ => ?_
  · split
    · exact .pure _
    · exact violateIn_local _
  · rcases c with _ | ⟨_, _, _ | _⟩ <;> rfl

theorem emit_local (op : Op) (operands : List OperandId) : Local (emit op operands) :=
  insertionBlock_local.bind fun _ => change_local

theorem operand_local (id : OperandId) : Local (operand id) :=
  machine_local.bind fun _ => .check _

theorem regOf_local (id : OperandId) : Local (regOf id) :=
  machine_local.bind fun _ => .check _

theorem newVReg_local (st : Storage) : Local (newVReg st) :=
  build_local.bind fun _ => build_local

theorem imm_local (n : Int64) (st : Storage) : Local (imm n st) := build_local

theorem symbol_local (name : String) : Local (symbol name) := build_local

theorem lookupValue_local (v : ValueId) : Local (lookupValue v) :=
  .reads (fun _ => .pure _) fun _ _ _ => rfl

theorem bindValue_local (v : ValueId) (id : OperandId) : Local (bindValue v id) := by
  refine (lookupValue_local v).bind fun found => ?_
  cases found with
  | none => exact .modify fun _ _ _ => rfl
  | some _ => exact violateIn_local _

theorem blockFor_local (b : IR.BlockId) : Local (blockFor b) := by
  refine .reads (fun s => ?_) fun _ _ _ => rfl
  split
  · exact .pure _
  · refine Local.sourceModule.bind fun _ => (Local.check _).bind fun _ => ?_
    refine .reads (fun s => ?_) fun _ _ _ => rfl
    split
    · exact .ite (build_local.bind fun _ =>
        (Local.modify fun _ _ _ => rfl).bind fun _ => .pure _) (violateIn_local _)
    · exact violateIn_local _

/-! ## Operands of values -/

theorem constantOperand_local (v : ValueId) (c : IR.Constant) :
    Local (constantOperand v c) := by
  refine Local.sourceModule.bind fun _ => (Local.check _).bind fun _ =>
    (Local.check _).bind fun _ => ?_
  cases c with
  | int n => exact imm_local _ _
  | null | zero | undef => exact imm_local _ _
  | float | bytes | aggregate => exact .check _

theorem argumentOperand_local (v : ValueId) (func : IR.FuncId) (index : UInt32) :
    Local (argumentOperand v func index) := by
  refine .reads (fun s => ?_) fun _ _ _ => rfl
  split
  · refine .ite ?_ (violateIn_local _)
    split
    · exact .pure _
    · exact violateIn_local _
  · exact violateIn_local _

theorem freshOperand_local (v : ValueId) : Local (freshOperand v) := by
  refine Local.sourceModule.bind fun m => (Local.check _).bind fun data => ?_
  cases data.kind with
  | instruction inst => exact violateIn_local _
  | argument func index => exact argumentOperand_local _ _ _
  | constant c => exact constantOperand_local _ _
  | function func =>
    exact (Local.check _).bind fun _ => Local.theAbi.bind fun _ =>
      (Local.check _).bind fun _ =>
      symbol_local _
  | global global => exact (Local.check _).bind fun _ => symbol_local _
  | block block => exact (blockFor_local _).bind fun _ => build_local

theorem resolve_local (v : ValueId) : Local (resolve v) := by
  refine (lookupValue_local v).bind fun found => ?_
  cases found with
  | some id => exact .pure _
  | none =>
    exact (freshOperand_local v).bind fun _ => (bindValue_local _ _).bind fun _ => .pure _

theorem lowerPhi_local (id : InstId) (i : Inst) : Local (lowerPhi id i) :=
  (Local.check _).bind fun _ => (newVReg_local _).bind fun _ =>
    (bindValue_local _ _).bind fun _ =>
    .modify fun _ _ _ => rfl

theorem predecessorBlock_local (phi pred : ValueId) :
    Local (predecessorBlock phi pred) := by
  refine Local.sourceModule.bind fun _ => (Local.check _).bind fun b => ?_
  refine .reads (fun s => ?_) fun _ _ _ => rfl
  cases s.blocks.find? b with
  | some block => exact .pure _
  | none => exact .check _

/-! ## Routines -/

/--
Every routine keeps away from the program. What is known of its answers is proved along
the way.
-/
theorem Does.over {env : Env} {x : LowerM α} {Q : α → Prop} (h : Does (.any env) x Q)
    (s : State) (p : Program) (fs : Bindings IR.FuncId Machine.FuncId) :
    x env (s.over p fs) = Outcome.over (x env s) p fs ∧ ∀ a t, Runs x env s a t →
      Q a := by
  induction h generalizing s with
  | pure answer => exact ⟨rfl, fun a t hrun => (runs_pure.mp hrun).1 ▸ answer⟩
  | @bind α β x k Q R _ _ ih ihk =>
    obtain ⟨hx, hQ⟩ := ih s
    constructor
    · simp only [Bind.bind, ReaderT.bind, EStateM.bind, hx]
      cases hrun : x env s with
      | ok a t => exact (ihk a (hQ a t hrun) t).1
      | error e t => rfl
    · intro b u hrun
      obtain ⟨a, t, ha, hb⟩ := runs_bind.mp hrun
      exact (ihk a (hQ a t ha) t).2 b u hb
  | @map α β x Q f _ ih =>
    refine ⟨?_, fun _ _ _ => trivial⟩
    simp only [Functor.map, EStateM.map, (ih s).1]
    cases x env s with
    | ok a t => rfl
    | error e t => rfl
  | check e => exact ⟨Local.check e env s p fs, fun a t hrun => (runs_check.mp hrun).1⟩
  | refuse =>
    exact ⟨Local.check _ env s p fs, fun a t hrun => nomatch (runs_check.mp hrun).1⟩
  | violateIn =>
    exact ⟨violateIn_local _ env s p fs, fun a t hrun => absurd hrun not_runs_violateIn⟩
  | sourceModule => exact ⟨rfl, fun m t hrun => (runs_sourceModule.mp hrun).1⟩
  | theAbi => exact ⟨rfl, fun _ _ _ => trivial⟩
  | machine => exact ⟨machine_local env s p fs, fun _ _ _ => trivial⟩
  | operand id => exact ⟨operand_local id env s p fs, fun _ _ _ => trivial⟩
  | regOf id => exact ⟨regOf_local id env s p fs, fun _ _ _ => trivial⟩
  | lookupValue v => exact ⟨lookupValue_local v env s p fs, fun _ _ _ => trivial⟩
  | predecessorBlock phi pred =>
    exact ⟨predecessorBlock_local phi pred env s p fs, fun _ _ _ => trivial⟩
  | newVReg => exact ⟨newVReg_local _ env s p fs, fun _ _ _ => trivial⟩
  | newSlot =>
    exact ⟨build_local.bind (fun _ => build_local) env s p fs, fun _ _ _ => trivial⟩
  | physReg | imm | mem => exact ⟨build_local env s p fs, fun _ _ _ => trivial⟩
  | emit op ids => exact ⟨emit_local op ids env s p fs, fun _ _ _ => trivial⟩
  | insert | reserve => exact ⟨change_local env s p fs, fun _ _ _ => trivial⟩
  | @resolve v _ => exact ⟨resolve_local v env s p fs, fun _ _ _ => trivial⟩
  | @lowerPhi id i _ => exact ⟨lowerPhi_local id i env s p fs, fun _ _ _ => trivial⟩

theorem Local.of_routine {x : LowerM α} (h : ∀ env, Routine (.any env) x) : Local x :=
  fun env s p fs => ((h env).over s p fs).1

theorem resolvePendingPhis_local : Local resolvePendingPhis := by
  have hcollect : ∀ edges id, Local (collectPhi edges id) := fun edges id =>
    .of_routine fun env => collectPhi_routine edges fun _ _ _ _ => trivial
  exact .reads (fun _ => (Local.modify fun _ _ _ => rfl).bind fun _ =>
    (Local.foldlM _ _ hcollect).bind fun _ =>
    .forM _ fun edge => .of_routine fun env => placeCopies_routine edge) fun _ _ _ => rfl

theorem lowerInst_local (id : InstId) : Local (lowerInst id) := by
  refine Local.sourceModule.bind fun _ => (Local.check _).bind fun i => ?_
  have hselect : Local (selectInst id i) :=
    .of_routine fun env =>
      selectInst_routine (fun _ _ => trivial) (fun _ _ _ _ => trivial) fun _ _ => trivial
  refine hselect.bind fun found => ?_
  cases found with
  | some result => exact bindValue_local _ _
  | none => exact .pure _

theorem lowerBlock_local (b : IR.BlockId) : Local (lowerBlock b) :=
  (blockFor_local b).bind fun _ => (Local.modify fun _ _ _ => rfl).bind fun _ =>
    Local.sourceModule.bind fun _ => (Local.check _).bind fun _ =>
      (Local.forM _ lowerInst_local).bind fun _ =>
    change_local

theorem beginFunction_local (func : IR.FuncId) : Local (beginFunction func) :=
  (Local.modify fun _ _ _ => rfl).bind fun _ => Local.sourceModule.bind fun _ =>
    (Local.check _).bind fun _ =>
    Local.theAllocator.bind fun _ => Local.theAbi.bind fun _ =>
      (Local.check _).bind fun _ =>
    .modify fun _ _ _ => rfl

/-! ## Whole functions -/

/-- All of the lowering of a function until it joins the program. -/
def fillFunction (func : IR.FuncId) (f : IR.Function) : LowerM Machine.Function := do
  beginFunction func
  f.blocks.forM lowerBlock
  resolvePendingPhis
  let built ← machine
  modify fun s => { s with current := none }
  check built.finish

/-- Adds a sealed function to the program. -/
def joinProgram (func : IR.FuncId) (m : Machine.Function) : LowerM Machine.FuncId := do
  let (id, output) ← check
    (@Machine.Program.pushFunction (← theAllocator) (← get).output m)
  modify fun s => { s with output, functions := s.functions.insert func id }
  pure id

theorem closeFunction_eq (func : IR.FuncId) :
    closeFunction func = (do
      let built ← machine
      modify fun s => { s with current := none }
      let m ← check built.finish
      joinProgram func m) := rfl

theorem fillFunction_local (func : IR.FuncId) (f : IR.Function) :
    Local (fillFunction func f) :=
  (beginFunction_local func).bind fun _ => (Local.forM _ lowerBlock_local).bind fun _ =>
    resolvePendingPhis_local.bind fun _ => machine_local.bind fun _ =>
    (Local.modify fun _ _ _ => rfl).bind fun _ => .check _

variable {env : Env} {func : IR.FuncId} {f : IR.Function} {s t : State}
  {m : Machine.Function}

/-- Filling a function starts by forgetting the one before. -/
theorem fillFunction_reset (s : State) : fillFunction func f env s =
    fillFunction func f env s.reset := rfl

/--
A function can be filled in any state with the same outcome, apart from the program.
-/
theorem fillFunction_over (s t : State) :
    fillFunction func f env t =
      Outcome.over (fillFunction func f env s) t.output t.functions := by
  rw [fillFunction_reset t, fillFunction_reset s]
  exact fillFunction_local func f env s.reset t.output t.functions

/-- A function that was filled is sealed. -/
theorem isSealed_of_fillFunction (h : Runs (fillFunction func f) env s m t) :
    m.isSealed = true := by
  simp only [fillFunction, runs_bind, runs_check, Machine.Function.finish, bind_eq_ok,
    pure_eq_ok] at h
  obtain ⟨_, _, _, _, _, _, _, _, _, _, _, _, _, _, _, ⟨_, _, rfl⟩, _⟩ := h
  rfl

/-- The id that the next function of the program gets. -/
def State.nextFunction (s : State) : Machine.FuncId := ⟨.ofNat s.output.functions.length⟩

/--
The session in state `rest`, with a function added to the program that it had in state
`s`.
-/
def State.joined (s : State) (func : IR.FuncId) (m : Machine.Function) (rest : State) :
    State :=
  rest.over { s.output with functions := s.output.functions ++ [m] }
    (s.functions.insert func s.nextFunction)

theorem joinProgram_eq (func : IR.FuncId) (hm : m.isSealed = true) (env : Env)
    (s : State) :
    joinProgram func m env s =
      match env.allocator.refusal? .function with
      | none => .ok s.nextFunction (s.joined func m s)
      | some cause => .error (.allocation cause) s := by
  show (check (@Machine.Program.pushFunction env.allocator s.output m) >>= _ : LowerM _)
    env s = _
  simp only [Machine.Program.pushFunction, hm, Allocator.ask]
  cases env.allocator.refusal? .function with
  | none => rfl
  | some cause => rfl

/-- A function that is not skipped is filled and joins the program. -/
theorem lowerFunction_eq (hf : env.module.function func = .ok f)
    (hplain : env.abi.isIntrinsic f.name = false) (s : State) :
    lowerFunction func env s =
      (do
        let m ← fillFunction func f
        some <$> joinProgram func m : LowerM (Option Machine.FuncId)) env s := by
  have hfill : (fillFunction func f >>= fun m => some <$> joinProgram func m) = (do
      beginFunction func
      f.blocks.forM lowerBlock
      resolvePendingPhis
      some <$> closeFunction func) := by
    simp only [fillFunction, closeFunction_eq, bind_assoc, map_bind]
  rw [hfill]
  show (check (env.module.function func) >>= _ : LowerM _) env s = _
  rw [hf]
  show (if env.abi.isIntrinsic f.name = true then _ else _ : LowerM _) env s = _
  rw [hplain]
  rfl

/--
What lowering a function leaves in a state, by what filling it leaves in another and by
whether there is memory for one more function.
-/
theorem lowerFunction_by_fill (hf : env.module.function func = .ok f)
    (hplain : env.abi.isIntrinsic f.name = false) (s t : State) :
    lowerFunction func env t =
      match fillFunction func f env s, env.allocator.refusal? .function with
      | .ok m rest, none => .ok (some t.nextFunction) (t.joined func m rest)
      | .ok _ rest, some cause =>
        .error (.allocation cause) (rest.over t.output t.functions)
      | .error e rest, _ => .error e (rest.over t.output t.functions) := by
  rw [lowerFunction_eq hf hplain]
  simp only [bind, ReaderT.bind, EStateM.bind, fillFunction_over s t]
  cases hfill : fillFunction func f env s with
  | ok m rest =>
    have hjoin :=
      joinProgram_eq func (isSealed_of_fillFunction hfill) env
        (rest.over t.output t.functions)
    simp only [Outcome.over, Functor.map, EStateM.map, hjoin]
    cases env.allocator.refusal? .function with
    | none => rfl
    | some cause => rfl
  | error e rest => rfl

theorem lowerFunction_of_missing {e : Failure} (hf : env.module.function func = .error e)
    (s : State) :
    lowerFunction func env s = .error e s := by
  show (check (env.module.function func) >>= _ : LowerM _) env s = _
  rw [hf]
  rfl

theorem lowerFunction_of_intrinsic (hf : env.module.function func = .ok f)
    (hname : env.abi.isIntrinsic f.name = true) (s : State) :
    lowerFunction func env s = .ok none s := by
  show (check (env.module.function func) >>= _ : LowerM _) env s = _
  rw [hf]
  show (if env.abi.isIntrinsic f.name = true then _ else _ : LowerM _) env s = _
  rw [hname]
  rfl

/-- Ends of the lowering of a function that was started in `s` and in `t`. -/
inductive SameEnd (func : IR.FuncId) (s t : State) :
    Outcome (Option Machine.FuncId) → Outcome (Option Machine.FuncId) → Prop
  | skipped : SameEnd func s t (.ok none s) (.ok none t)
  | lowered (m : Machine.Function) (rest : State) :
      SameEnd func s t (.ok (some s.nextFunction) (s.joined func m rest))
        (.ok (some t.nextFunction) (t.joined func m rest))
  | failed (e : Failure) (s' t' : State)
      (left : s'.output = s.output ∧ s'.functions = s.functions)
      (right : t'.output = t.output ∧ t'.functions = t.functions) :
      SameEnd func s t (.error e s') (.error e t')

/--
Lowering a function ends in the same way in all states of a session, those after failures
and abandoned functions included: it is skipped in both, fails in both for the same
reason, or adds the same machine function to both programs. A failure leaves the program
as it was.
-/
theorem lowerFunction_ignores_past (env : Env) (func : IR.FuncId) (s t : State) :
    SameEnd func s t (lowerFunction func env s) (lowerFunction func env t) := by
  cases hf : env.module.function func with
  | error e =>
    rw [lowerFunction_of_missing hf, lowerFunction_of_missing hf]
    exact .failed e s t ⟨rfl, rfl⟩ ⟨rfl, rfl⟩
  | ok f =>
    cases hplain : env.abi.isIntrinsic f.name with
    | true =>
      rw [lowerFunction_of_intrinsic hf hplain, lowerFunction_of_intrinsic hf hplain]
      exact .skipped
    | false =>
      rw [lowerFunction_by_fill hf hplain s s, lowerFunction_by_fill hf hplain s t]
      cases fillFunction func f env s with
      | ok m rest =>
        cases env.allocator.refusal? .function with
        | none => exact .lowered m rest
        | some cause => exact .failed _ _ _ ⟨rfl, rfl⟩ ⟨rfl, rfl⟩
      | error e rest => exact .failed e _ _ ⟨rfl, rfl⟩ ⟨rfl, rfl⟩

end InstSelect.Lowering
