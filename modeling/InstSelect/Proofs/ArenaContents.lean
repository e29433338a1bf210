import InstSelect.Proofs.Sessions
import InstSelect.Proofs.Disciplines
import InstSelect.Proofs.HistoryIndependence
import InstSelect.Proofs.WellTyped

/-!
# What selection puts into an arena

Every operand of a function comes from one of a few sources: a value that its code names,
a class of storage that was checked to be an integer one, or the class of an operand that
is there already. An invariant of sessions that bears these operands, and does not look at
code, is `Durable`: no step of a lowering breaks it, also not one that fails halfway. In
particular a property of operands that the sources respect, a `Supply`, holds of the whole
arena of every lowered function.
-/

namespace InstSelect.Machine

/-- The function without its body. -/
def Function.header (f : Function) : Function := .new f.name f.ret f.argTypes f.flags

end InstSelect.Machine

namespace InstSelect.IR.Module

/-- The operands of the instructions of a function, in order. -/
def mentioned (m : Module) (f : Function) : List ValueId :=
  (m.order f).flatMap fun id =>
    match m.inst id with
    | .ok i => i.operands
    | .error _ => []

theorem mem_mentioned {m : Module} {f : Function} {b : BlockId} {data : Block}
    {id : InstId} {i : Inst} {v : ValueId} (hb : b ∈ f.blocks)
    (hdata : m.block b = .ok data) (hid : id ∈ data.insts) (hi : m.inst id = .ok i)
    (hv : v ∈ i.operands) : v ∈ m.mentioned f := by
  have hinsts : id ∈ m.instsOf b := by
    rw [instsOf, hdata]
    exact hid
  refine List.mem_flatMap.mpr ⟨id, List.mem_flatMap.mpr ⟨b, hb, hinsts⟩, ?_⟩
  rw [hi]
  exact hv

end InstSelect.IR.Module

namespace InstSelect.Lowering

open IR (ValueId InstId Inst)
open Machine (Storage Operand OperandId Op PhysReg Address)

variable {f : IR.Function} {st : Storage} {v : ValueId} {id : InstId}
  {m : Machine.Function} {α : Type} {ty : IR.Ty}

/-! ## Invariants along a run -/

/--
A step that upholds an invariant, even where it fails, and whose answers have a property.
-/
structure Upholds {α : Type} (env : Env) (I : State → Prop) (x : LowerM α)
    (Q : α → Prop) : Prop where
  ok : ∀ s a s', I s → Runs x env s a s' → I s' ∧ Q a
  failed : ∀ s e s', I s → Fails x env s e s' → I s'

/-- A step that upholds an invariant, whatever it answers. -/
abbrev Upheld {α : Type} (env : Env) (I : State → Prop) (x : LowerM α) : Prop :=
  Upholds env I x fun _ => True

namespace Upholds

variable {α β : Type} {env : Env} {I : State → Prop} {x : LowerM α} {k : α → LowerM β}
  {Q : α → Prop} {R : β → Prop}

/-- Where a step that fails changes nothing, only its success matters. -/
theorem of_clean (hx : Clean x) (h : ∀ s a s', I s → Runs x env s a s' → I s' ∧ Q a) :
    Upholds env I x Q :=
  ⟨h, fun s e s' hs hfail => hx env s e s' hfail ▸ hs⟩

theorem of_inert (hx : Inert x) (h : ∀ s a s', I s → Runs x env s a s' → Q a) :
    Upholds env I x Q :=
  .of_clean hx.clean fun s a s' hs hrun =>
    ⟨hx.kept env s a s' hrun ▸ hs, h s a s' hs hrun⟩

theorem pure {a : α} (h : Q a) : Upholds env I (pure a) Q :=
  .of_inert (.pure a) fun _ _ _ _ hrun => (runs_pure.mp hrun).1 ▸ h

theorem done (a : α) : Upheld env I (Pure.pure a : LowerM α) := pure trivial

theorem bind (hx : Upholds env I x Q) (hk : ∀ a, Q a → Upholds env I (k a) R) :
    Upholds env I (x >>= k) R where
  ok s b s' hs hrun := by
    obtain ⟨a, t, ha, hb⟩ := runs_bind.mp hrun
    obtain ⟨ht, hQ⟩ := hx.ok s a t hs ha
    exact (hk a hQ).ok t b s' ht hb
  failed s e s' hs hfail := by
    rcases fails_bind.mp hfail with h | ⟨a, t, ha, h⟩
    · exact hx.failed s e s' hs h
    · obtain ⟨ht, hQ⟩ := hx.ok s a t hs ha
      exact (hk a hQ).failed t e s' ht h

theorem map {f : α → β} (hx : Upholds env I x Q) : Upheld env I (f <$> x) where
  ok s b s' hs hrun := by
    obtain ⟨a, ha, -⟩ := runs_map.mp hrun
    exact ⟨(hx.ok s a s' hs ha).1, trivial⟩
  failed s e s' hs hfail := hx.failed s e s' hs (fails_map.mp hfail)

theorem check (e : Except Failure α) : Upholds env I (check e) fun a => e = .ok a :=
  .of_inert (.check e) fun _ _ _ _ hrun => (runs_check.mp hrun).1

/-- A step that never succeeds upholds everything. -/
theorem refuse {f : Failure} : Upholds env I (Lowering.check (.error f) : LowerM α) Q :=
  .of_inert (.check _) fun _ _ _ _ hrun => nomatch (runs_check.mp hrun).1

theorem violateIn {broken : String → Violation} :
    Upholds env I (violateIn broken : LowerM α) Q :=
  .of_inert .violateIn fun _ _ _ _ hrun => absurd hrun not_runs_violateIn

theorem sourceModule : Upholds env I sourceModule fun m => env.module = m :=
  .of_inert .sourceModule fun _ _ _ _ hrun => (runs_sourceModule.mp hrun).1

theorem theAbi : Upholds env I theAbi fun abi => env.abi = abi :=
  .of_inert .theAbi fun _ _ _ _ hrun => (runs_theAbi.mp hrun).1

theorem forM {f : α → LowerM Unit} {xs : List α} (hf : ∀ a ∈ xs, Upheld env I (f a)) :
    Upheld env I (xs.forM f) := by
  induction xs with
  | nil => exact done _
  | cons a xs ih =>
    rw [List.forall_mem_cons] at hf
    exact hf.1.bind fun _ _ => ih hf.2

end Upholds

/-! ## What selection may do -/

/-- An invariant bears one more operand in the arena. -/
def Bears (I : State → Prop) (form : Machine.Form) (st : Storage) : Prop :=
  ∀ s c, s.current = some c → I s → I (s.withMachine c (c.machine.extend form st))

/-- An invariant bears new code, and other counts of registers and slots. -/
def Rewrites (I : State → Prop) : Prop :=
  ∀ s c f, s.current = some c → f.header = c.machine.header →
    f.operands = c.machine.operands →
    f.args = c.machine.args → f.maxCallStack = c.machine.maxCallStack → I s →
    I (s.withMachine c f)

/-- An invariant bears that an amount of stack is reserved for calls. -/
def Reserves (I : State → Prop) (bytes : UInt32) : Prop :=
  ∀ s c, s.current = some c → I s → I (s.withMachine c (c.machine.reserveCallStack bytes))

/-- An invariant bears all operands of a class of storage, symbols apart. -/
def Suits (I : State → Prop) (st : Storage) : Prop :=
  ∀ form, (∀ name, form ≠ .symbol name) → Bears I form st

/--
What selection does to a session, besides binding values, does not break the invariant.
-/
structure Robust (env : Env) (used : ValueId → Prop) (I : State → Prop) : Prop where
  /-- Operands of classes that are not floating point. -/
  plain : ∀ st : Storage, st.isFloat = false → Suits I st
  /-- Operands of the class of an operand that is there. -/
  alike : ∀ s c o, s.current = some c → o ∈ c.machine.operands → I s → Suits I o.storage
  /-- Operands of the class of the function's result. -/
  result : ∀ s c, s.current = some c → I s → Suits I c.machine.ret
  code : Rewrites I
  blocks : ∀ s blocks, I s → I { s with blocks }
  insertion : ∀ s b, I s →
    I { s with current := s.current.map ({ · with block := some b }) }
  pending : ∀ s ids, (∀ id ∈ ids, DrawsOn env used id) → I s →
    I { s with pendingPhis := ids }
  drawn : ∀ s, I s → ∀ id ∈ s.pendingPhis, DrawsOn env used id

/--
An invariant that selection cannot break as long as code names `used` values only and
reserves no stack. The fields list what else selection does to a session: operands of a
few kinds are added, code is written, blocks are found, values are resolved, and phis get
their register and wait.
-/
structure Durable (env : Env) (used : ValueId → Prop) (I : State → Prop) :
    Prop extends Robust env used I where
  resolve : ∀ v, used v → Upheld env I (resolve v)
  phi : ∀ id i, DrawsOn env used id → Upheld env I (lowerPhi id i)

/-- The invariant bears the operands of constants and symbols. -/
structure Stocking (env : Env) (used : ValueId → Prop) (I : State → Prop) : Prop where
  constant : ∀ v ty k n st, used v → env.module.value v = .ok ⟨ty, .constant k⟩ →
    constantWord? k = some n →
    storageOf ty = .ok st → Bears I (.imm n) st
  function : ∀ func f name, env.module.function func = .ok f →
    env.abi.symbolName f.name = .ok name →
    Bears I (.symbol name) .ptr
  global : ∀ global g, env.module.global global = .ok g → Bears I (.symbol g.name) .ptr

/-- An invariant that selection cannot break as long as no value is bound. -/
structure Supports (env : Env) (used : ValueId → Prop) (I : State → Prop) : Prop
    extends Robust env used I, Stocking env used I

/--
An invariant that does not look at what values are bound to: any unbound value may be
bound.
-/
structure Indifferent (env : Env) (used : ValueId → Prop) (I : State → Prop) : Prop
    extends Supports env used I where
  values : ∀ s v id, s.values.find? v = none → I s →
    I { s with values := s.values.insert v id }

variable {env : Env} {used : ValueId → Prop} {I : State → Prop} {s s' : State}

/-! ## Elementary steps -/

/-- Where the operand is refused, what was counted for it stays counted. -/
theorem counted_upholds
    {take : Machine.Function → Except Failure (α × Machine.Function)}
    {form : α → Machine.Form} (hcode : Rewrites I)
    (htake : ∀ f a f', take f = .ok (a, f') →
      f'.header = f.header ∧ f'.operands = f.operands ∧
      f'.args = f.args ∧ f'.maxCallStack = f.maxCallStack) (hok : ∀ s id s', I s →
      Runs (build (take ·) >>= fun a => build (·.pushOperand (form a) st)) env s id s' →
        I s') :
    Upheld env I (build (take ·) >>= fun a => build (·.pushOperand (form a) st)) := by
  refine ⟨fun s id s' hs hrun => ⟨hok s id s' hs hrun, trivial⟩,
    fun s e s' hs hfail => ?_⟩
  obtain hfail | ⟨a, t, htook, hfail⟩ := fails_bind.mp hfail
  · exact Clean.build env s e s' hfail ▸ hs
  · obtain ⟨c, f, hc, hf, rfl⟩ := runs_build.mp htook
    obtain ⟨hheader, hops, hargs, hstack⟩ := htake _ _ _ hf
    rw [Clean.build env _ e s' hfail]
    exact hcode s c f hc hheader hops hargs hstack hs

theorem newVReg_upholds (hcode : Rewrites I) (hst : Suits I st) :
    Upheld env I (newVReg st) := by
  refine counted_upholds hcode (fun f r f' h => ?_) fun s id s' hs hrun => ?_
  · obtain ⟨-, -, rfl⟩ := Machine.Function.takeVReg_eq_ok.mp h
    exact ⟨rfl, rfl, rfl, rfl⟩
  · obtain ⟨c, hc, -, -, -, -, rfl⟩ := runs_newVReg.mp hrun
    exact hst _ (by simp) s c hc hs

theorem physReg_upholds {reg : PhysReg} (hst : Suits I st) :
    Upheld env I (physReg reg st) := by
  refine .of_clean .build fun s id s' hs hrun => ?_
  obtain ⟨c, hc, -, -, -, rfl⟩ := runs_physReg.mp hrun
  exact ⟨hst _ (by simp) s c hc hs, trivial⟩

theorem imm_upholds {n : Int64} (ho : Bears I (.imm n) st) : Upheld env I (imm n st) := by
  refine .of_clean .build fun s id s' hs hrun => ?_
  obtain ⟨c, hc, -, -, -, rfl⟩ := runs_imm.mp hrun
  exact ⟨ho s c hc hs, trivial⟩

theorem symbol_upholds {name : String} (ho : Bears I (.symbol name) .ptr) :
    Upheld env I (symbol name) := by
  refine .of_clean .build fun s id s' hs hrun => ?_
  obtain ⟨c, hc, -, -, -, rfl⟩ := runs_symbol.mp hrun
  exact ⟨ho s c hc hs, trivial⟩

theorem mem_upholds {a : Address} (hst : Suits I st) : Upheld env I (mem a st) := by
  refine .of_clean .build fun s id s' hs hrun => ?_
  obtain ⟨c, hc, -, -, -, rfl⟩ := runs_mem.mp hrun
  exact ⟨hst _ (by simp) s c hc hs, trivial⟩

theorem newSlot_upholds {size : UInt64} {align : UInt32} (hcode : Rewrites I)
    (hst : Suits I .ptr) :
    Upheld env I (newSlot size align) := by
  refine counted_upholds hcode (fun f r f' h => ?_) fun s id s' hs hrun => ?_
  · obtain ⟨-, -, rfl⟩ := Machine.Function.takeSlot_eq_ok.mp h
    exact ⟨rfl, rfl, rfl, rfl⟩
  · obtain ⟨c, hc, -, -, -, -, rfl⟩ := runs_newSlot.mp hrun
    exact hst _ (by simp) s c hc hs

theorem blockRef_upholds {b : Machine.BlockId} (ho : Bears I (.label b) .void) :
    Upheld env I (build (·.blockRef b)) := by
  refine .of_clean .build fun s id s' hs hrun => ?_
  obtain ⟨c, hc, -, -, -, -, rfl⟩ := runs_blockRef.mp hrun
  exact ⟨ho s c hc hs, trivial⟩

theorem lookupValue_upholds (v : ValueId) : Upheld env I (lookupValue v) :=
  .of_inert (.lookupValue v) fun _ _ _ _ _ => trivial

theorem predecessorBlock_upholds (phi pred : ValueId) :
    Upheld env I (predecessorBlock phi pred) := by
  refine Upholds.sourceModule.bind fun _ _ => (Upholds.check _).bind fun b _ => ?_
  refine .of_inert (.bind .get fun s => ?_) fun _ _ _ _ _ => trivial
  split
  · exact .pure _
  · exact .check _

theorem blockFor_upholds_of (hcode : Rewrites I)
    (hblocks : ∀ s blocks, I s → I { s with blocks }) (b : IR.BlockId) :
    Upheld env I (blockFor b) := by
  refine .of_clean (.blockFor b) fun s id s' hs hrun => ?_
  obtain ⟨-, rfl⟩ | ⟨c, data, -, -, hc, -, -, -, -, rfl⟩ := runs_blockFor.mp hrun
  · exact ⟨hs, trivial⟩
  · have hnext :=
      hcode s c (c.machine.withBlock (data.name.getD (toString b))) hc rfl rfl rfl rfl hs
    exact ⟨hblocks _ _ hnext, trivial⟩

/-! ## Binding values -/

section Binding

/-- An invariant that bears the blocks and operands of the values that need no code. -/
structure Hosts (env : Env) (used : ValueId → Prop) (I : State → Prop) :
    Prop extends Stocking env used I where
  label : ∀ b, Bears I (.label b) .void
  block : ∀ b, Upheld env I (blockFor b)

theorem constantOperand_upholds (hI : Hosts env used I) {c : IR.Constant} (hv : used v)
    (hvalue : env.module.value v = .ok ⟨ty, .constant c⟩) :
    Upheld env I (constantOperand v c) := by
  refine Upholds.sourceModule.bind fun m hm => (Upholds.check _).bind fun t ht =>
    (Upholds.check _).bind fun st hst => ?_
  subst hm
  obtain rfl : ty = t := by
    obtain ⟨data, hdata, hty⟩ := bind_eq_ok.mp ht
    rw [hvalue] at hdata
    cases hdata
    exact pure_eq_ok.mp hty
  have hword : ∀ n, constantWord? c = some n → Bears I (.imm n) st := fun n hn =>
    hI.constant v ty c n st hv hvalue hn hst
  cases c with
  | int n => exact imm_upholds (hword n rfl)
  | null | zero | undef => exact imm_upholds (hword 0 rfl)
  | float | bytes | aggregate => exact .refuse

theorem argumentOperand_upholds (v : ValueId) (func : IR.FuncId) (index : UInt32) :
    Upheld env I (argumentOperand v func index) :=
  .of_inert (.argumentOperand v func index) fun _ _ _ _ _ => trivial

theorem freshOperand_upholds (hI : Hosts env used I) (hv : used v) :
    Upheld env I (freshOperand v) := by
  refine Upholds.sourceModule.bind fun m hm => (Upholds.check _).bind fun data hdata => ?_
  subst hm
  obtain ⟨ty, kind⟩ := data
  cases kind with
  | instruction inst => exact .violateIn
  | argument func index => exact argumentOperand_upholds _ _ _
  | constant c => exact constantOperand_upholds hI hv hdata
  | function func =>
    refine (Upholds.check _).bind fun f hf => Upholds.theAbi.bind fun abi habi =>
      (Upholds.check _).bind fun name hname => ?_
    subst habi
    exact symbol_upholds (hI.function func f name hf hname)
  | global global =>
    exact (Upholds.check _).bind fun g hg => symbol_upholds (hI.global global g hg)
  | block block => exact (hI.block block).bind fun b _ => blockRef_upholds (hI.label b)

variable (hvalues : ∀ s v id, s.values.find? v = none → I s →
  I { s with values := s.values.insert v id })

include hvalues

theorem bindValue_upholds (v : ValueId) (id : OperandId) :
    Upheld env I (bindValue v id) := by
  refine .of_clean (.bindValue v id) fun s u s' hs hrun => ?_
  obtain ⟨hunbound, rfl⟩ := runs_bindValue.mp hrun
  exact ⟨hvalues s v id hunbound hs, trivial⟩

theorem Hosts.resolve (hI : Hosts env used I) (hv : used v) :
    Upheld env I (resolve v) := by
  refine (lookupValue_upholds v).bind fun found _ => ?_
  cases found with
  | some id => exact .done _
  | none =>
    exact (freshOperand_upholds hI hv).bind fun _ _ =>
      (bindValue_upholds hvalues _ _).bind fun _ _ => .done _

omit hvalues

theorem Supports.hosts (hI : Supports env used I) : Hosts env used I where
  toStocking := hI.toStocking
  label b := hI.plain _ rfl _ (by simp)
  block := blockFor_upholds_of hI.code hI.blocks

/-- Given that values can be bound, nothing that selection does breaks the invariant. -/
theorem Supports.durable (hI : Supports env used I)
    (hresolve : ∀ v, used v → Upheld env I (resolve v))
    (hphi : ∀ id i, DrawsOn env used id → Upheld env I (lowerPhi id i)) :
    Durable env used I :=
  ⟨hI.toRobust, hresolve, hphi⟩

/-- A phi that got its register waits for its copies. -/
theorem awaitPhi_upholds (hI : Supports env used I) (hid : DrawsOn env used id) :
    Upheld env I (modify fun s => { s with pendingPhis := s.pendingPhis ++ [id] }) := by
  refine .of_clean (.of_total fun _ _ _ _ h => by cases h) fun s u s' hs hrun => ?_
  obtain rfl := runs_modify.mp hrun
  refine ⟨hI.pending s _ (fun k hk => ?_) hs, trivial⟩
  rcases List.mem_append.mp hk with hold | hnew
  · exact hI.drawn s hs k hold
  · obtain rfl := List.mem_singleton.mp hnew
    exact hid

/--
An invariant that does not look at bindings is durable if it bears the operands that
values stand for.
-/
theorem Indifferent.durable (hI : Indifferent env used I) : Durable env used I := by
  refine hI.toSupports.durable (fun v hv => hI.hosts.resolve hI.values hv)
    fun id i hid => ?_
  exact (Upholds.check _).bind fun st hst =>
    (newVReg_upholds hI.code (hI.plain st (isFloat_of_scalarStorage hst))).bind fun _ _ =>
    (bindValue_upholds hI.values _ _).bind fun _ _ => awaitPhi_upholds hI.toSupports hid

end Binding

section Steps

variable (hI : Durable env used I)

include hI

theorem emit_upholds (op : Op) (ids : List OperandId) : Upheld env I (emit op ids) := by
  refine .of_clean (.emit op ids) fun s u s' hs hrun => ?_
  obtain ⟨c, id, b, os, hc, -, -, -, -, -, -, rfl⟩ := runs_emit.mp hrun
  exact ⟨hI.code s c _ hc rfl rfl rfl rfl hs, trivial⟩

theorem setInsertionBlock_upholds (b : Machine.BlockId) :
    Upheld env I (setInsertionBlock b) := by
  refine .of_clean (.of_total fun _ _ _ _ h => by cases h) fun s u s' hs hrun => ?_
  obtain rfl := runs_setInsertionBlock.mp hrun
  exact ⟨hI.insertion s b hs, trivial⟩

theorem appendBlock_upholds (b : Machine.BlockId) :
    Upheld env I (change (·.appendBlock b)) := by
  refine .of_clean .change fun s u s' hs hrun => ?_
  obtain ⟨c, f, hc, hf, rfl⟩ := runs_change.mp hrun
  obtain ⟨-, -, -, -, rfl⟩ := Machine.Function.appendBlock_eq_ok.mp hf
  exact ⟨hI.code s c _ hc rfl rfl rfl rfl hs, trivial⟩

theorem operand_upholds (id : OperandId) :
    Upholds env I (operand id) fun o => Suits I o.storage := by
  refine .of_inert (.operand id) fun s o s' hs hrun => ?_
  obtain ⟨c, hc, ho, rfl⟩ := runs_operand.mp hrun
  exact hI.alike s c o hc (Array.mem_of_getElem? ho) hs

theorem machine_upholds : Upholds env I machine fun f => Suits I f.ret := by
  refine .of_inert .machine fun s f s' hs hrun => ?_
  obtain ⟨c, hc, rfl, rfl⟩ := runs_machine.mp hrun
  exact hI.result s c hc hs

theorem blockFor_upholds (b : IR.BlockId) : Upheld env I (blockFor b) :=
  blockFor_upholds_of hI.code hI.blocks b

theorem insertBeforeTerminator_upholds (b : Machine.BlockId) (op : Op)
    (ids : List OperandId) :
    Upheld env I (change (·.insertBeforeTerminator b op ids)) := by
  refine .of_clean .change fun s u s' hs hrun => ?_
  obtain ⟨c, f, hc, hf, rfl⟩ := runs_change.mp hrun
  obtain ⟨-, os, b, -, -, -, -, rfl⟩ :=
    Machine.Function.insertBeforeTerminator_eq_ok.mp hf
  exact ⟨hI.code s c _ hc rfl rfl rfl rfl hs, trivial⟩

omit hI in
theorem reserveCallStack_upholds {bytes : UInt32} (h : Reserves I bytes) :
    Upheld env I (change fun f => pure (f.reserveCallStack bytes)) := by
  refine .of_clean .change fun s u s' hs hrun => ?_
  obtain ⟨c, f, hc, hf, rfl⟩ := runs_change.mp hrun
  obtain rfl := pure_eq_ok.mp hf
  exact ⟨h s c hc hs, trivial⟩

/-! ## Routines -/

omit hI in
/-- What selection has to work with under a durable invariant. -/
def Durable.terms (hI : Durable env used I) : Terms :=
  ⟨env, used, Reserves I, Suits I, hI.plain⟩

/-- No routine breaks a durable invariant. -/
theorem Durable.upholds {x : LowerM α} {Q : α → Prop} (h : Does hI.terms x Q) :
    Upholds env I x Q := by
  induction h with
  | pure answer => exact .pure answer
  | bind _ _ ih ihk => exact ih.bind ihk
  | map f _ ih => exact ih.map
  | check e => exact .check e
  | refuse => exact .refuse
  | violateIn => exact .violateIn
  | sourceModule => exact .sourceModule
  | theAbi => exact .of_inert .theAbi fun _ _ _ _ _ => trivial
  | machine => exact machine_upholds hI
  | operand id => exact operand_upholds hI id
  | regOf id => exact .of_inert (.regOf id) fun _ _ _ _ _ => trivial
  | lookupValue v => exact lookupValue_upholds v
  | predecessorBlock phi pred => exact predecessorBlock_upholds phi pred
  | newVReg hst => exact newVReg_upholds hI.code hst
  | physReg hst => exact physReg_upholds hst
  | imm hst => exact imm_upholds (hst _ (by simp))
  | mem hst => exact mem_upholds hst
  | newSlot => exact newSlot_upholds hI.code (hI.plain _ rfl)
  | emit op ids => exact emit_upholds hI op ids
  | insert b op ids => exact insertBeforeTerminator_upholds hI b op ids
  | reserve allowed => exact reserveCallStack_upholds allowed
  | resolve hv => exact hI.resolve _ hv
  | lowerPhi i hid => exact hI.phi _ i hid

theorem selectInst_upholds {i : Inst} (hi : ∀ v ∈ i.operands, used v)
    (hid : DrawsOn env used id) (hcall : i.opcode = .call → ∀ bytes, Reserves I bytes) :
    Upheld env I (selectInst id i) :=
  hI.upholds (selectInst_routine hi hid hcall)

theorem resolvePendingPhis_upholds : Upheld env I resolvePendingPhis := by
  have hstart : ∀ s, I s → I { s with pendingPhis := [] } :=
    fun s hs => hI.pending s [] (by simp) hs
  have hrest : ∀ s, I s → Upheld env I (do
      let edges ← s.pendingPhis.foldlM collectPhi []
      edges.forM placeCopies) := fun s hs =>
    hI.upholds (.bind
      (.foldlM (fun edges id hid => collectPhi_routine edges (hI.drawn s hs id hid)) _)
      fun _ _ => .forM fun edge _ => placeCopies_routine edge)
  exact ⟨fun s u s' hs hrun => (hrest s hs).ok _ u s' (hstart s hs) hrun,
    fun s e s' hs hfail => (hrest s hs).failed _ e s' (hstart s hs) hfail⟩

end Steps

section Blocks

variable (hI : Indifferent env used I) (hreserve : ∀ bytes, Reserves I bytes)

include hI hreserve

theorem lowerInst_upholds (hid : DrawsOn env used id) : Upheld env I (lowerInst id) := by
  refine Upholds.sourceModule.bind fun m hm => (Upholds.check _).bind fun i hi => ?_
  subst hm
  refine (selectInst_upholds hI.durable (hid i hi) hid fun _ => hreserve).bind
    fun found _ => ?_
  cases found with
  | some result => exact bindValue_upholds hI.values _ _
  | none => exact .done _

theorem lowerBlock_upholds {b : IR.BlockId}
    (hb : ∀ data, env.module.block b = .ok data →
      ∀ id ∈ data.insts, DrawsOn env used id) :
    Upheld env I (lowerBlock b) := by
  refine (blockFor_upholds hI.durable b).bind fun id _ =>
    (setInsertionBlock_upholds hI.durable id).bind fun _ _ =>
    Upholds.sourceModule.bind fun m hm => (Upholds.check _).bind fun data hdata => ?_
  subst hm
  exact (Upholds.forM fun k hk => lowerInst_upholds hI hreserve (hb data hdata k hk)).bind
    fun _ _ =>
    appendBlock_upholds hI.durable id

end Blocks

/-! ## Supplies -/

/-- A set of operands has all operands of a class of storage, symbols apart. -/
def Stocks (P : Operand → Prop) (st : Storage) : Prop :=
  ∀ form, (∀ name, form ≠ .symbol name) → P ⟨form, st⟩

/--
A set of operands that selection cannot leave as long as code names `used` values only.
-/
structure Supply (env : Env) (used : ValueId → Prop) (P : Operand → Prop) : Prop where
  plain : ∀ st : Storage, st.isFloat = false → Stocks P st
  alike : ∀ o, P o → Stocks P o.storage
  constant : ∀ v ty k n st, used v → env.module.value v = .ok ⟨ty, .constant k⟩ →
    constantWord? k = some n →
    storageOf ty = .ok st → P ⟨.imm n, st⟩
  function : ∀ func f name, env.module.function func = .ok f →
    env.abi.symbolName f.name = .ok name →
    P ⟨.symbol name, .ptr⟩
  global : ∀ global g, env.module.global global = .ok g → P ⟨.symbol g.name, .ptr⟩

/--
A session whose arena holds operands of a supply only, whose header is fixed, and whose
phis use used values.
-/
structure Stocked (env : Env) (used : ValueId → Prop) (P : Operand → Prop)
    (header : Machine.Function) (s : State) :
    Prop where
  operands : ∀ c, s.current = some c → ∀ o ∈ c.machine.operands, P o
  header : ∀ c, s.current = some c → c.machine.header = header
  pending : ∀ id ∈ s.pendingPhis, DrawsOn env used id

section Supplies

variable {P : Operand → Prop} {header : Machine.Function}

theorem Supply.scalar (hP : Supply env used P) {role : String}
    (h : scalarStorage ty role = .ok st) : Stocks P st :=
  hP.plain st (isFloat_of_scalarStorage h)

theorem Stocked.withMachine {c : Current} {f : Machine.Function}
    (hs : Stocked env used P header s) (hc : s.current = some c)
    (hheader : f.header = c.machine.header) (hops : ∀ o ∈ f.operands, P o) :
    Stocked env used P header (s.withMachine c f) := by
  refine ⟨fun d hd => ?_, fun d hd => ?_, hs.pending⟩
  · cases hd
    exact hops
  · cases hd
    exact hheader.trans (hs.header c hc)

theorem bears_of_supply {form : Machine.Form} (ho : P ⟨form, st⟩) :
    Bears (Stocked env used P header) form st := by
  intro s c hc hs
  refine hs.withMachine hc rfl fun o ho' => ?_
  rcases Array.mem_push.mp ho' with hold | rfl
  · exact hs.operands c hc o hold
  · exact ho

theorem suits_of_stocks (hst : Stocks P st) : Suits (Stocked env used P header) st :=
  fun form hform => bears_of_supply (hst form hform)

/-- Drawing on a supply is an invariant of selection. -/
theorem Supply.indifferent (hP : Supply env used P) (hret : Stocks P header.ret) :
    Indifferent env used (Stocked env used P header) where
  plain st hst := suits_of_stocks (hP.plain st hst)
  alike s c o hc ho hs := suits_of_stocks (hP.alike o (hs.operands c hc o ho))
  result s c hc hs :=
    suits_of_stocks
      (by rwa [← show c.machine.header.ret = c.machine.ret from rfl, hs.header c hc])
  constant v ty k n st hv hvalue hn hst :=
    bears_of_supply (hP.constant v ty k n st hv hvalue hn hst)
  function func f name hf hname := bears_of_supply (hP.function func f name hf hname)
  global global g hg := bears_of_supply (hP.global global g hg)
  code s c f hc hheader hops _ _ hs := hs.withMachine hc hheader (hops ▸ hs.operands c hc)
  values s v id _ hs := ⟨hs.operands, hs.header, hs.pending⟩
  blocks s blocks hs := ⟨hs.operands, hs.header, hs.pending⟩
  insertion s b hs := by
    refine ⟨fun c hc => ?_, fun c hc => ?_, hs.pending⟩
    · obtain ⟨d, hd, rfl⟩ := Option.map_eq_some_iff.mp hc
      exact hs.operands d hd
    · obtain ⟨d, hd, rfl⟩ := Option.map_eq_some_iff.mp hc
      exact hs.header d hd
  pending s ids hids hs := ⟨hs.operands, hs.header, hids⟩
  drawn s hs := hs.pending

/-! ## Whole functions -/

/-- The header that lowering gives a function. -/
structure Heads (f : IR.Function) (m : Machine.Function) : Prop where
  name : m.name = f.name
  ret : storageOf f.sig.ret = .ok m.ret
  argTypes : f.sig.params.mapM storageOf = .ok m.argTypes
  flags : m.flags = ⟨f.sig.isVariadic, f.isExternal⟩

theorem Heads.of_header {n : Machine.Function} (h : Heads f m)
    (heq : n.header = m.header) : Heads f n := by
  unfold Machine.Function.header Machine.Function.new at heq
  obtain ⟨hname, hret, hargs, hflags⟩ : n.name = m.name ∧ n.ret = m.ret ∧
    n.argTypes = m.argTypes ∧
      n.flags = m.flags := by
    simpa using heq
  exact ⟨hname ▸ h.name, hret ▸ h.ret, hargs ▸ h.argTypes, hflags ▸ h.flags⟩

/--
What a function is before its code: its header, and the registers of its parameters.
-/
theorem openFunction_contents {alloc : Machine.Allocator} {abi : Abi}
    (hP : Supply env used P) (h : openFunction abi f = .ok m) :
    Heads f m ∧ (f.isExternal = false → Stocks P m.ret) ∧ ∀ o ∈ m.operands, P o := by
  obtain ⟨ret, argTypes, sts, hret, hargs, rfl, -, hsts⟩ := openFunction_eq_ok h
  refine ⟨⟨rfl, hret, hargs, rfl⟩, fun hdef => ?_, fun o ho => ?_⟩
  · obtain ⟨hext, -⟩ | ⟨-, hst, -⟩ := hsts
    · cases hdef.symm.trans hext
    · exact hP.scalar hst
  · obtain ⟨r, st, hst, rfl⟩ := mem_argOperands (List.mem_toArray.mp ho)
    obtain ⟨-, rfl⟩ | ⟨-, -, hsts⟩ := hsts
    · cases hst
    · obtain ⟨ty, -, hty⟩ := exists_left_of_forall₂ hsts st hst
      exact hP.scalar hty _ (by simp)

/--
A function that was filled has the header of its source, and operands of the supply.
-/
theorem fillFunction_contents {func : IR.FuncId} (hP : Supply env used P)
    (hfunc : env.module.function func = .ok f)
    (hused : ∀ v ∈ env.module.mentioned f, used v)
    (hret : f.isExternal = true → ∀ st, storageOf f.sig.ret = .ok st → Stocks P st)
    (h : Runs (fillFunction func f) env s m s') : Heads f m ∧ ∀ o ∈ m.operands, P o := by
  simp only [fillFunction, runs_bind, runs_machine, runs_modify, runs_check,
    Machine.Function.finish, bind_eq_ok, pure_eq_ok] at h
  obtain ⟨_, _, hbegin, _, _, hblocks, _, _, hphis, _, _, ⟨c, hc, rfl, rfl⟩, _, _, -,
    ⟨_, -, rfl⟩, -⟩ := h
  obtain ⟨f', opened, hf', hopen, rfl⟩ := runs_beginFunction hbegin
  cases hfunc.symm.trans hf'
  obtain ⟨hheads, hretDefined, hops⟩ := openFunction_contents hP hopen
  have hretAll : Stocks P opened.header.ret := by
    cases hext : f.isExternal with
    | true => exact hret hext _ hheads.ret
    | false => exact hretDefined hext
  have hopened : Stocked env used P opened.header
      { s.reset with current := some ⟨func, opened, none⟩ } :=
    ⟨fun c hc => Option.some.inj hc ▸ hops, fun c hc => Option.some.inj hc ▸ rfl,
      by simp [State.reset]⟩
  have hI := hP.indifferent hretAll
  have hfill : Upheld env (Stocked env used P opened.header) (f.blocks.forM lowerBlock) :=
    .forM fun b hb =>
      lowerBlock_upholds hI (fun _ _ c hc hs => hs.withMachine hc rfl (hs.operands c hc))
      fun data hdata k hk i hi v hv => hused v (IR.Module.mem_mentioned hb hdata hk hi hv)
  have hfilled := (hfill.ok _ _ _ hopened hblocks).1
  have hcopied := ((resolvePendingPhis_upholds hI.durable).ok _ _ _ hfilled hphis).1
  exact ⟨hheads.of_header (hcopied.header c hc), hcopied.operands c hc⟩

end Supplies

end InstSelect.Lowering
