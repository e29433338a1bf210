import Mathlib.Logic.Relation
import InstSelect.Proofs.OperandWidths
import InstSelect.Proofs.SessionAtomicity

/-!
# Which values share an operand

While a function is lowered, values are bound to operands from several places: when they
are resolved, when an instruction has its result, and when a phi gets its register. A
binding is never changed. An operand that is numbered for a value is numbered for no other
one, and the register of a parameter belongs to the argument from the beginning, so the
only way for a second value to come to an operand is a cast that passes its operand on.

The invariant is about owners. A value owns the operand that it is bound to; an argument
owns its register even before it is bound; and the result of an instruction is reserved
for its value before it is bound. All owners of an operand are connected by casts.
-/

namespace InstSelect.IR.Module

/-- Connected by a chain of casts that only change how bits are viewed. -/
def Connected (m : Module) : ValueId → ValueId → Prop :=
  Relation.EqvGen fun v u => m.viewed? v = some u

end InstSelect.IR.Module

namespace InstSelect.Lowering

open IR (ValueId InstId Inst)
open Machine (Storage OperandId Form)

/-! ## Owners -/

/-- Operands that are set aside for values. -/
abbrev Reservations := ValueId → OperandId → Prop

/-- One more reservation. -/
def Reservations.add (R : Reservations) (v : ValueId) (id : OperandId) : Reservations :=
  fun w id' => R w id' ∨ w = v ∧ id' = id

/-- The values that have a claim to an operand. -/
inductive Owns (env : Env) (R : Reservations) (s : State) (c : Current) (v : ValueId)
    (id : OperandId) : Prop
  | bound (bound : s.values.find? v = some id)
  | argument {ty : IR.Ty} {index : UInt32}
      (value : env.module.value v = .ok ⟨ty, .argument c.source index⟩)
      (arg : c.machine.args[index.toNat]? = some id)
  | reserved (reserved : R v id)

/-- Operands with owners exist, and all owners of one are connected. -/
structure Orderly (env : Env) (R : Reservations) (s : State) (c : Current) : Prop where
  numbered : ∀ v id, Owns env R s c v id → id.index.toNat < c.machine.operands.size
  shared : ∀ v w id, Owns env R s c v id → Owns env R s c w id → env.module.Connected v w

/--
Only connected values share an operand of the function being built, as long as ids tell
operands apart.
-/
def Apart (env : Env) (R : Reservations) (s : State) : Prop :=
  ∃ c, s.current = some c ∧ (c.machine.operands.size ≤ 2 ^ 32 → Orderly env R s c)

variable {env : Env} {R : Reservations} {s s' t : State} {c c' : Current}
  {v w : ValueId} {id : OperandId} {k : InstId} {i : Inst} {func : IR.FuncId}
  {I : State → Prop}

theorem Owns.of_add {r : OperandId} (h : Owns env (R.add v id) s c w r) :
    Owns env R s c w r ∨ w = v ∧ r = id := by
  cases h with
  | bound h => exact .inl (.bound h)
  | argument value arg => exact .inl (.argument value arg)
  | reserved h => exact h.imp_left .reserved

/-- Owners are the same after a change that keeps bindings and arguments. -/
theorem Owns.of_same (h : Owns env R s' c' v id) (hvalues : s'.values = s.values)
    (hsource : c'.source = c.source)
    (hargs : c'.machine.args = c.machine.args) : Owns env R s c v id := by
  cases h with
  | bound h => exact .bound (hvalues ▸ h)
  | argument value arg => exact .argument (hsource ▸ value) (hargs ▸ arg)
  | reserved h => exact .reserved h

namespace Apart

theorem current (h : Apart env R s) : ∃ c, s.current = some c := h.imp fun _ h => h.1

theorem persist (h : Apart env R s) (hc : s.current = some c) (hc' : s'.current = some c')
    (hvalues : s'.values = s.values) (hsource : c'.source = c.source)
    (hargs : c'.machine.args = c.machine.args)
    (hsize : c.machine.operands.size ≤ c'.machine.operands.size) :
    Apart env R s' := by
  obtain ⟨d, hd, h⟩ := h
  cases hc.symm.trans hd
  have hsame : ∀ {v id}, Owns env R s' c' v id → Owns env R s c v id :=
    fun hown => hown.of_same hvalues hsource hargs
  refine ⟨c', hc', fun hsmall => ?_⟩
  have hold := h (Nat.le_trans hsize hsmall)
  exact ⟨fun v id hv => Nat.lt_of_lt_of_le (hold.numbered v id (hsame hv)) hsize,
    fun v w id hv hw => hold.shared v w id (hsame hv) (hsame hw)⟩

theorem of_add (h : Apart env (R.add v id) s) : Apart env R s := by
  obtain ⟨c, hc, h⟩ := h
  have howns : ∀ {w id'}, Owns env R s c w id' → Owns env (R.add v id) s c w id' := by
    intro w id' hown
    cases hown with
    | bound h => exact .bound h
    | argument value arg => exact .argument value arg
    | reserved h => exact .reserved (.inl h)
  exact ⟨c, hc, fun hsmall => ⟨fun v id hv => (h hsmall).numbered v id (howns hv),
    fun v w id hv hw => (h hsmall).shared v w id (howns hv) (howns hw)⟩⟩

/-- An operand may be set aside for a value that is connected to one of its owners. -/
theorem reserve (h : Apart env R s) (hc : s.current = some c) (hown : Owns env R s c w id)
    (hvw : env.module.Connected v w) : Apart env (R.add v id) s := by
  obtain ⟨d, hd, h⟩ := h
  cases hc.symm.trans hd
  have hroot : ∀ {x r}, Owns env (R.add v id) s c x r →
      ∃ x', Owns env R s c x' r ∧ env.module.Connected x x' := by
    intro x r hx
    obtain hold | ⟨rfl, rfl⟩ := hx.of_add
    · exact ⟨x, hold, .refl _⟩
    · exact ⟨w, hown, hvw⟩
  refine ⟨c, hc, fun hsmall => ⟨fun x r hx => ?_, fun x y r hx hy => ?_⟩⟩
  · obtain ⟨x', hx', -⟩ := hroot hx
    exact (h hsmall).numbered x' r hx'
  · obtain ⟨x', hx', hxx'⟩ := hroot hx
    obtain ⟨y', hy', hyy'⟩ := hroot hy
    exact (hxx'.trans _ _ _ ((h hsmall).shared x' y' r hx' hy')).trans _ _ _
      (hyy'.symm _ _)

/-- An operand that is numbered has no owner yet, and may be set aside for any value. -/
theorem number (h : Apart env R s) (hc : s.current = some c) (form : Form)
    (st : Storage) :
    Apart env (R.add v c.machine.nextId)
      (s.withMachine c (c.machine.extend form st)) := by
  have hsize : (c.machine.extend form st).operands.size = c.machine.operands.size + 1 :=
    Array.size_push _
  obtain ⟨d, hd, h⟩ := h
  cases hc.symm.trans hd
  have hback : ∀ {x r},
      Owns env (R.add v c.machine.nextId) (s.withMachine c (c.machine.extend form st))
        { c with machine := c.machine.extend form st } x r →
      Owns env R s c x r ∨ x = v ∧ r = c.machine.nextId :=
    fun hx => hx.of_add.imp_left (·.of_same rfl rfl rfl)
  refine ⟨_, rfl, fun hsmall => ?_⟩
  replace hsmall : c.machine.operands.size < 2 ^ 32 := by
    have hle : (c.machine.extend form st).operands.size ≤ 2 ^ 32 := hsmall
    omega
  have hindex : c.machine.nextId.index.toNat = c.machine.operands.size :=
    UInt32.toNat_ofNat_of_lt' hsmall
  obtain ⟨hnumbered, hshared⟩ := h (Nat.le_of_lt hsmall)
  have hfresh : ∀ {x}, ¬ Owns env R s c x c.machine.nextId := fun hx => by
    have hlt := hnumbered _ _ hx
    omega
  refine ⟨fun x r hx => ?_, fun x y r hx hy => ?_⟩
  · show r.index.toNat < (c.machine.extend form st).operands.size
    obtain hold | ⟨-, rfl⟩ := hback hx
    · have hlt := hnumbered x r hold
      omega
    · omega
  · obtain hoth | ⟨rfl, rfl⟩ := hback hx
    · obtain hold | ⟨-, rfl⟩ := hback hy
      · exact hshared x y r hoth hold
      · exact absurd hoth hfresh
    · obtain hold | ⟨rfl, -⟩ := hback hy
      · exact absurd hold hfresh
      · exact .refl _

/-- A reserved operand is bound to its value. -/
theorem bind (h : Apart env (R.add v id) s) :
    Apart env R { s with values := s.values.insert v id } := by
  obtain ⟨c, hc, h⟩ := h
  have howns : ∀ {w r}, Owns env R { s with values := s.values.insert v id } c w r →
      Owns env (R.add v id) s c w r := by
    intro w r hown
    cases hown with
    | bound h =>
      rw [Bindings.find?_insert] at h
      split at h
      · next heq =>
        cases h
        exact .reserved (.inr ⟨heq.symm, rfl⟩)
      · exact .bound h
    | argument value arg => exact .argument value arg
    | reserved h => exact .reserved (.inl h)
  exact ⟨c, hc, fun hsmall => ⟨fun w r hw => (h hsmall).numbered w r (howns hw),
    fun w x r hw hx => (h hsmall).shared w x r (howns hw) (howns hx)⟩⟩

end Apart

/-! ## Selection -/

/-- A step that answers with the operand that it numbers. -/
def Numbers (env : Env) (x : LowerM OperandId) : Prop :=
  ∀ s id s', Runs x env s id s' →
    ∃ c form st, s.current = some c ∧ id = c.machine.nextId ∧
    s' = s.withMachine c (c.machine.extend form st)

theorem Numbers.newVReg (st : Storage) : Numbers env (newVReg st) := fun s id s' h => by
  obtain ⟨c, hc, -, -, -, hid, hs⟩ := runs_newVReg.mp h
  exact ⟨c, _, _, hc, hid, hs⟩

theorem Numbers.newSlot (size : UInt64) (align : UInt32) :
    Numbers env (newSlot size align) :=
  fun s id s' h => by
    obtain ⟨c, hc, -, -, -, hid, hs⟩ := runs_newSlot.mp h
    exact ⟨c, _, _, hc, hid, hs⟩

theorem Numbers.imm (n : Int64) (st : Storage) : Numbers env (imm n st) :=
  fun s id s' h => by
  obtain ⟨c, hc, -, -, hid, hs⟩ := runs_imm.mp h
  exact ⟨c, _, _, hc, hid, hs⟩

theorem Numbers.symbol (name : String) : Numbers env (symbol name) := fun s id s' h => by
  obtain ⟨c, hc, -, -, hid, hs⟩ := runs_symbol.mp h
  exact ⟨c, _, _, hc, hid, hs⟩

theorem Numbers.blockRef (b : Machine.BlockId) : Numbers env (build (·.blockRef b)) :=
  fun s id s' h => by
  obtain ⟨c, hc, -, -, -, hid, hs⟩ := runs_blockRef.mp h
  exact ⟨c, _, _, hc, hid, hs⟩

/-- Whatever is numbered can be set aside for a value. -/
theorem Numbers.gives {x : LowerM OperandId} (h : Numbers env x) (R : Reservations)
    (v : ValueId) :
    Gives env (Apart env R) x fun id => Apart env (R.add v id) := by
  intro s id s' hs hrun
  obtain ⟨c, form, st, hc, rfl, rfl⟩ := h s id s' hrun
  exact hs.number hc form st

theorem bears_apart (form : Form) (st : Storage) : Bears (Apart env R) form st := by
  intro s c hc hs
  exact hs.persist hc rfl rfl rfl rfl (by simp [Machine.Function.extend])

theorem reserves_apart (R : Reservations) (bytes : UInt32) :
    Reserves (Apart env R) bytes :=
  fun _ _ hc hs => hs.persist hc rfl rfl rfl rfl (Nat.le_refl _)

theorem supports_apart (R : Reservations) :
    Supports env (fun _ => True) (Apart env R) where
  plain _ _ _ _ := bears_apart _ _
  alike _ _ _ _ _ _ _ _ := bears_apart _ _
  result _ _ _ _ _ _ := bears_apart _ _
  constant _ _ _ _ _ _ _ _ _ := bears_apart _ _
  function _ _ _ _ _ := bears_apart _ _
  global _ _ _ := bears_apart _ _
  code s c f hc _ hops hargs _ hs := hs.persist hc rfl rfl rfl hargs (by simp [hops])
  blocks s blocks hs := by
    obtain ⟨c, hc⟩ := hs.current
    exact hs.persist hc hc rfl rfl rfl (Nat.le_refl _)
  insertion s b hs := by
    obtain ⟨c, hc⟩ := hs.current
    have hc' : s.current.map ({ · with block := some b }) =
      some { c with block := some b } := by rw [hc]; rfl
    exact hs.persist hc hc' rfl rfl rfl (Nat.le_refl _)
  pending s ids _ hs := by
    obtain ⟨c, hc⟩ := hs.current
    exact hs.persist hc hc rfl rfl rfl (Nat.le_refl _)
  drawn _ _ _ _ _ _ _ _ := trivial

/-- A step that leads from one invariant to another, however it ends. -/
structure Restores {α : Type} (env : Env) (J : State → Prop) (x : LowerM α)
    (I : State → Prop) : Prop where
  ok : ∀ s a s', J s → Runs x env s a s' → I s'
  failed : ∀ s e s', J s → Fails x env s e s' → I s'

section Restoring

variable {α β : Type} {I J : State → Prop}

theorem Restores.bind {x : LowerM α} {k : α → LowerM β} (hx : Restores env J x I)
    (hk : ∀ a, Upheld env I (k a)) : Restores env J (x >>= k) I := by
  refine ⟨fun s b s' hs hrun => ?_, fun s e s' hs hfail => ?_⟩
  · obtain ⟨a, t, ha, hrest⟩ := runs_bind.mp hrun
    exact ((hk a).ok t b s' (hx.ok s a t hs ha) hrest).1
  · obtain hfirst | ⟨a, t, ha, hrest⟩ := fails_bind.mp hfail
    · exact hx.failed s e s' hs hfirst
    · exact (hk a).failed t e s' (hx.ok s a t hs ha) hrest

theorem Upholds.restores {x : LowerM α} (hx : Upheld env I x) : Restores env I x I :=
  ⟨fun s a s' hs hrun => (hx.ok s a s' hs hrun).1, hx.failed⟩

/--
What a step answers decides what holds until the rest of the steps restores the invariant.
-/
theorem Upholds.restoring {x : LowerM α} {k : α → LowerM β} {K : α → State → Prop}
    (hx : Upheld env I x) (hK : ∀ s a t, I s → Runs x env s a t → K a t)
    (hk : ∀ a, Restores env (K a) (k a) I) :
    Upheld env I (x >>= k) := by
  refine ⟨fun s b s' hs hrun => ?_, fun s e s' hs hfail => ?_⟩
  · obtain ⟨a, t, ha, hrest⟩ := runs_bind.mp hrun
    exact ⟨(hk a).ok t b s' (hK s a t hs ha) hrest, trivial⟩
  · obtain hfirst | ⟨a, t, ha, hrest⟩ := fails_bind.mp hfail
    · exact hx.failed s e s' hs hfirst
    · exact (hk a).failed t e s' (hK s a t hs ha) hrest

end Restoring

theorem bindValue_restores (v : ValueId) (id : OperandId) :
    Restores env (Apart env (R.add v id)) (bindValue v id) (Apart env R) := by
  refine ⟨fun s u s' hs hrun => ?_, fun s e s' hs hfail => ?_⟩
  · obtain ⟨-, rfl⟩ := runs_bindValue.mp hrun
    exact hs.bind
  · rw [Clean.bindValue v id env s e s' hfail]
    exact hs.of_add

/-- The operand that a value needing no code gets has no other owner. -/
theorem freshOperand_gives (v : ValueId) :
    Gives env (Apart env R) (freshOperand v) fun id => Apart env (R.add v id) := by
  refine .after .sourceModule fun m hm => .after (.check _) fun data hdata => ?_
  subst hm
  obtain ⟨ty, kind⟩ := data
  cases kind with
  | instruction inst => exact fun s id s' _ hrun => absurd hrun not_runs_violateIn
  | argument func index =>
    intro s id s' hs hrun
    obtain ⟨rfl, c, hc, hleaf⟩ := argumentOperand_leaf hdata hrun
    cases hleaf with
    | argument _ _ value arg => exact hs.reserve hc (.argument value arg) (.refl _)
    | constant _ _ _ _ value | function _ _ _ _ value | global _ _ _ value
    | block _ _ _ value =>
      cases value.symm.trans hdata
  | constant c =>
    refine .after .sourceModule fun _ _ => .after (.check _) fun _ _ =>
      .after (.check _) fun st _ => ?_
    cases c with
    | int n | null | zero | undef => exact (Numbers.imm _ _).gives R v
    | float | bytes | aggregate => exact .refuse
  | function func =>
    exact .after (.check _) fun _ _ => .after .theAbi fun _ _ =>
      .after (.check _) fun _ _ =>
      (Numbers.symbol _).gives R v
  | global global => exact .after (.check _) fun _ _ => (Numbers.symbol _).gives R v
  | block block =>
    exact .after ((supports_apart R).hosts.block block) fun _ _ =>
      (Numbers.blockRef _).gives R v

/-- Whatever selection does, the owners of an operand stay connected. -/
theorem durable_apart (R : Reservations) : Durable env (fun _ => True) (Apart env R) := by
  have hsupports : Supports env _ _ := supports_apart R
  refine hsupports.durable (fun v hv => ?_) fun k i hk => ?_
  · refine (lookupValue_upholds v).bind fun found _ => ?_
    cases found with
    | some id => exact .done _
    | none =>
      exact (freshOperand_upholds hsupports.hosts hv).restoring (freshOperand_gives v)
        fun id =>
        (bindValue_restores v id).bind fun _ => .done _
  · refine (Upholds.check _).bind fun st hst => ?_
    exact (newVReg_upholds hsupports.code
      (hsupports.plain st (isFloat_of_scalarStorage hst))).restoring
      ((Numbers.newVReg st).gives R i.value) fun id =>
      (bindValue_restores i.value id).bind fun _ => awaitPhi_upholds hsupports hk

/-! ## Results of instructions -/

/-- Registers and slots are numbered for the value of the instruction. -/
theorem marks_apart (R : Reservations) (v : ValueId) :
    Marks env (fun _ => True) (Apart env R) fun _ id => Apart env (R.add v id) where
  before := durable_apart R
  reserve := reserves_apart R
  after _ id := durable_apart (R.add v id)
  register st := (Numbers.newVReg st).gives R v
  slot size align := (Numbers.newSlot size align).gives R v

/-- A cast answers with the operand of the value that it views, or with a copy of it. -/
theorem lowerReinterpret_apart (hm : env.module.Linked) (hi : env.module.inst k = .ok i)
    (hop : i.opcode.isReinterpret = true) :
    Gives env (Apart env R) (lowerReinterpret i) fun id =>
      Apart env (R.add i.value id) := by
  refine .after (.check _) fun _ _ => .after (.check _) fun x hx => ?_
  have hview : env.module.viewed? i.value = some x := by
    rw [viewed?_of_inst hm hi, if_pos hop, unaryOperand_eq_ok.mp hx]
    rfl
  intro s id s' hs hrun
  obtain ⟨r, t, hresolve, hinto⟩ := runs_bind.mp hrun
  obtain ⟨-, -, hbound⟩ := resolve_path hresolve
  have ht := ((durable_apart R).resolve x trivial).ok s r t hs hresolve
  obtain ⟨o, _, ho, hinto⟩ := runs_bind.mp hinto
  obtain ⟨rfl, -⟩ := holds_of_operand ho
  split at hinto
  · obtain ⟨rfl, rfl⟩ := runs_pure.mp hinto
    obtain ⟨c, hc⟩ := ht.1.current
    exact ht.1.reserve hc (.bound hbound) (.rel _ _ hview)
  · have hcopy : Gives env (Apart env R) (copyToVReg r) fun id =>
        Apart env (R.add i.value id) :=
      .after (operand_upholds (durable_apart R) r) fun _ _ =>
        (marks_apart R i.value).fresh _ fun _ =>
        (materialize_routine _ _).bind fun _ _ => .pure rfl
    exact hcopy _ _ _ ht.1 hinto

/-- The result of an instruction is set aside for its value. -/
theorem selectInst_apart (hm : env.module.Linked) (hi : env.module.inst k = .ok i)
    (hs : Apart env R s) (hrun : Runs (selectInst k i) env s (some id) s') :
    Apart env (R.add i.value id) s' := by
  cases hop : i.opcode.isReinterpret with
  | false =>
    obtain ⟨-, -, h⟩ :=
      selectInst_marks (marks_apart R i.value) (fun _ _ => trivial) hop hs hrun
    exact h
  | true =>
    rw [selectInst_reinterpret k hop] at hrun
    obtain ⟨a, heq, hrun⟩ := some_map hrun
    cases heq
    exact lowerReinterpret_apart hm hi hop s _ s' hs hrun

/-- The owners of an operand stay connected when the result of an instruction is bound. -/
theorem lowerInst_apart (hm : env.module.Linked) (k : InstId) :
    Upheld env (Apart env R) (lowerInst k) := by
  refine Upholds.sourceModule.bind fun m hmodule => (Upholds.check _).bind fun i hi => ?_
  subst hmodule
  have hselect : Upheld env (Apart env R) (selectInst k i) :=
    selectInst_upholds (durable_apart R) (fun _ _ => trivial) (fun _ _ _ _ => trivial)
      fun _ => reserves_apart R
  refine hselect.restoring (K := fun r s => r.elim (Apart env R s) fun id =>
    Apart env (R.add i.value id) s) (fun s r t hs hrun => ?_) fun r => ?_
  · cases r with
    | some id => exact selectInst_apart hm hi hs hrun
    | none => exact (hselect.ok s _ t hs hrun).1
  · cases r with
    | some id => exact bindValue_restores i.value id
    | none => exact (Upholds.done ()).restores

/-! ## The beginning of a function -/

/-- The registers of the parameters are the first operands, in order. -/
theorem openFunction_ids {alloc : Machine.Allocator} {abi : Abi} {f : IR.Function}
    {m : Machine.Function} (h : openFunction abi f = .ok m) {j : Nat}
    (hid : m.args[j]? = some id) : j < m.operands.size ∧ id = ⟨.ofNat j⟩ := by
  obtain ⟨ret, argTypes, sts, -, -, rfl, hlen, -⟩ := openFunction_eq_ok h
  obtain ⟨hj, rfl⟩ := getElem?_argIds hid
  exact ⟨by simpa only [List.size_toArray, length_argOperands hlen] using hj, rfl⟩

/-- Each parameter has one value. -/
theorem argument_unique {index : UInt32} {ty ty' : IR.Ty} (hm : env.module.Linked)
    (hv : env.module.value v = .ok ⟨ty, .argument func index⟩)
    (hw : env.module.value w = .ok ⟨ty', .argument func index⟩) : v = w := by
  obtain ⟨f, hf, hparam, -⟩ := hm.values _ _ (IR.Module.value_eq_ok.mp hv)
  obtain ⟨f', hf', hparam', -⟩ := hm.values _ _ (IR.Module.value_eq_ok.mp hw)
  cases hf.symm.trans hf'
  have hindex : v.index = w.index := by simpa using hparam.symm.trans hparam'
  exact congrArg ValueId.mk hindex

theorem apart_of_beginFunction {u : Unit} (hm : env.module.Linked)
    (h : Runs (beginFunction func) env s u s') : Apart env (fun _ _ => False) s' := by
  obtain ⟨f, m, -, hopen, rfl⟩ := runs_beginFunction h
  refine ⟨⟨func, m, none⟩, rfl, fun hsmall => ⟨fun v id hv => ?_, fun v w id hv hw => ?_⟩⟩
  · cases hv with
    | bound h => cases h
    | argument value arg =>
      obtain ⟨hlt, rfl⟩ := openFunction_ids hopen arg
      rw [IR.Module.toNat_ofNat_of_lt hlt hsmall]
      exact hlt
    | reserved h => exact h.elim
  · cases hv with
    | bound h => cases h
    | @argument _ index value arg =>
      cases hw with
      | bound h => cases h
      | @argument _ index' value' arg' =>
        obtain ⟨hlt, hid⟩ := openFunction_ids hopen arg
        obtain ⟨hlt', hid'⟩ := openFunction_ids hopen arg'
        have hindex := congrArg (·.index.toNat) (hid.symm.trans hid')
        simp only [IR.Module.toNat_ofNat_of_lt hlt hsmall,
          IR.Module.toNat_ofNat_of_lt hlt' hsmall] at hindex
        cases UInt32.toNat_inj.mp hindex
        cases argument_unique hm value value'
        exact .refl _
      | reserved h => exact h.elim
    | reserved h => exact h.elim

/-! ## The rest of a function -/

/-- What can be done between the beginning of a function and its end. -/
inductive Operation
  | resolve (v : ValueId)
  | lowerInst (k : InstId)
  | resolvePhis
  | enter (b : IR.BlockId)
  | layOut (b : Machine.BlockId)

def Operation.run : Operation → LowerM Unit
  | resolve v => (fun _ => ()) <$> Lowering.resolve v
  | lowerInst k => Lowering.lowerInst k
  | resolvePhis => resolvePendingPhis
  | enter b => blockFor b >>= setInsertionBlock
  | layOut b => change (·.appendBlock b)

/-- One operation was carried out, or refused part of the way. -/
def Proceeds (env : Env) (s t : State) : Prop :=
  ∃ op : Operation, Runs op.run env s () t ∨
    ∃ e, e.isRefusal = true ∧ Fails op.run env s e t

/-- `t` is a later state of the function than `s`. -/
def Later (env : Env) : State → State → Prop := Relation.ReflTransGen (Proceeds env)

/-- Operations keep what selection keeps, if lowering instructions does. -/
theorem Operation.upholds (hI : Durable env (fun _ => True) I)
    (hinst : ∀ k, Upheld env I (Lowering.lowerInst k)) :
    ∀ op : Operation, Upheld env I op.run
  | resolve v => (hI.resolve v trivial).map
  | lowerInst k => hinst k
  | resolvePhis => resolvePendingPhis_upholds hI
  | enter b => (blockFor_upholds hI b).bind fun id _ => setInsertionBlock_upholds hI id
  | layOut b => appendBlock_upholds hI b

/-- What every operation keeps holds for the rest of the function. -/
theorem Later.keeps (hI : ∀ op : Operation, Upheld env I op.run) (h : Later env s t)
    (hs : I s) : I t := by
  induction h with
  | refl => exact hs
  | tail _ hstep ih =>
    obtain ⟨op, hrun | ⟨e, -, hfail⟩⟩ := hstep
    · exact ((hI op).ok _ _ _ ih hrun).1
    · exact (hI op).failed _ _ _ ih hfail

theorem indifferent_bound (v : ValueId) (id : OperandId) :
    Indifferent env (fun _ => True) fun s => s.values.find? v = some id where
  plain _ _ _ _ _ _ _ h := h
  alike _ _ _ _ _ _ _ _ _ _ _ h := h
  result _ _ _ _ _ _ _ _ _ h := h
  constant _ _ _ _ _ _ _ _ _ _ _ _ h := h
  function _ _ _ _ _ _ _ _ h := h
  global _ _ _ _ _ _ h := h
  code _ _ _ _ _ _ _ _ h := h
  blocks _ _ h := h
  insertion _ _ h := h
  pending _ _ _ h := h
  drawn _ _ _ _ _ _ _ _ := trivial
  values s w r hunbound h := by
    rw [Bindings.find?_insert]
    split
    · next heq =>
      subst heq
      cases hunbound.symm.trans h
    · exact h

/-! ## Resolving writes no code -/

/-- The instructions of the blocks of the function being built. -/
def State.code (s : State) : List (List Machine.Inst) :=
  match s.current with
  | some c => c.machine.blocks.toList.map (·.insts)
  | none => []

/-- Blocks may have been added, but no instruction. -/
def SameCode (s t : State) : Prop := ∃ n, t.code = s.code ++ List.replicate n []

theorem SameCode.blockFor (b : IR.BlockId) : Upheld env (SameCode s) (blockFor b) := by
  refine .of_clean (.blockFor b) fun t id t' ht hrun => ?_
  obtain ⟨-, rfl⟩ | ⟨c, data, -, -, hc, -, -, -, -, rfl⟩ := runs_blockFor.mp hrun
  · exact ⟨ht, trivial⟩
  · obtain ⟨n, hn⟩ := ht
    refine ⟨⟨n + 1, ?_⟩, trivial⟩
    rw [List.replicate_succ', ← List.append_assoc, ← hn]
    simp [State.code, hc, State.withMachine, Machine.Function.withBlock]

theorem bears_sameCode (form : Form) (st : Storage) : Bears (SameCode s) form st := by
  rintro t c hc ⟨n, hn⟩
  refine ⟨n, hn ▸ ?_⟩
  simp [State.code, hc, State.withMachine, Machine.Function.extend]

theorem hosts_sameCode (s : State) : Hosts env (fun _ => True) (SameCode s) where
  constant _ _ _ _ _ _ _ _ _ := bears_sameCode _ _
  function _ _ _ _ _ := bears_sameCode _ _
  global _ _ _ := bears_sameCode _ _
  label _ := bears_sameCode _ _
  block := SameCode.blockFor

/-- Resolving a value writes no code, however it ends. -/
theorem resolve_sameCode (env : Env) (s : State) (v : ValueId) :
    SameCode s (Outcome.state (resolve v env s)) := by
  have hup : Upheld env (SameCode s) (resolve v) :=
    (hosts_sameCode s).resolve (fun _ _ _ _ h => h) trivial
  have hs : SameCode s s := ⟨0, by simp⟩
  cases h : resolve v env s with
  | ok id t => exact (hup.ok s id t hs h).1
  | error e t => exact hup.failed s e t hs h

/-! ## Bindings -/

/-- What holds of the bindings in a state, and in all later ones of the function. -/
structure WrittenOnce (env : Env) (t : State) : Prop where
  /-- Resolving a value binds it to the operand. -/
  binds : ∀ v id t', Runs (resolve v) env t id t' → t'.values.find? v = some id
  /-- A binding stays, and resolving the value again only reads it. -/
  memoized : ∀ v id, t.values.find? v = some id → ∀ t', Later env t t' →
    t'.values.find? v = some id ∧ Runs (resolve v) env t' id t'
  silent : ∀ v, SameCode t (Outcome.state (resolve v env t))
  /--
  Only values that casts connect share an operand. Ids are 32-bit, and tell that many
  operands apart.
  -/
  shared : t.Small → ∀ v w id, t.values.find? v = some id → t.values.find? w = some id →
    env.module.Connected v w

/--
Bindings are written once in every lowering of a function, whatever is done in whatever
order.
-/
theorem bindings_written_once {func : IR.FuncId} (hbuilt : IR.Built env.module)
    (hids : env.module.values.size ≤ 2 ^ 32)
    (hbegin : Runs (beginFunction func) env s () s')
    (ht : Later env s' t) : WrittenOnce env t where
  binds v id t' h := (resolve_path h).2.2
  memoized v id hv t' ht' := by
    have hI : Indifferent env _ _ := indifferent_bound v id
    have hbound : t'.values.find? v = some id :=
      ht'.keeps (Operation.upholds hI.durable fun k =>
        lowerInst_upholds hI (fun _ _ _ _ h => h) fun _ _ _ _ => trivial) hv
    refine ⟨hbound, runs_bind.mpr ⟨_, _, runs_lookupValue.mpr ⟨hbound, rfl⟩, ?_⟩⟩
    exact runs_pure.mpr ⟨rfl, rfl⟩
  silent := resolve_sameCode env t
  shared hsmall v w id hv hw := by
    have hm := hbuilt.linked hids
    have hkeeps := Operation.upholds (durable_apart fun _ _ => False) (lowerInst_apart hm)
    obtain ⟨c, hc, h⟩ := ht.keeps hkeeps (apart_of_beginFunction hm hbegin)
    exact (h (hsmall c hc)).shared v w id (.bound hv) (.bound hw)

/-! ## A pointer that goes through an integer -/

/--
`f(p)` has an addition that is refused, and takes its pointer to an integer and back.
-/
def roundTrip : IR.Module where
  name := "m"
  values := #[⟨.ptr (.function [.ptr (.int .w8)] .void false), .function ⟨0⟩⟩,
    ⟨.ptr (.int .w8), .argument ⟨0⟩ 0⟩, ⟨.void, .block ⟨0⟩⟩, ⟨.f64, .instruction ⟨0⟩⟩,
    ⟨.uint .w64, .instruction ⟨1⟩⟩, ⟨.ptr (.int .w8), .instruction ⟨2⟩⟩]
  insts := #[⟨.fadd, [⟨1⟩, ⟨1⟩], .f64, ⟨0⟩, ⟨3⟩⟩,
    ⟨.ptrToInt, [⟨1⟩], .uint .w64, ⟨0⟩, ⟨4⟩⟩,
    ⟨.intToPtr, [⟨4⟩], .ptr (.int .w8), ⟨0⟩, ⟨5⟩⟩]
  blocks := #[⟨⟨0⟩, none, [⟨0⟩, ⟨1⟩, ⟨2⟩], ⟨2⟩⟩]
  functions := #[⟨"f", ⟨[.ptr (.int .w8)], .void, false⟩, [⟨1⟩], [⟨0⟩], false, ⟨0⟩⟩]
  globals := #[]

theorem built_roundTrip : IR.Built roundTrip := by
  have h := (IR.Built.empty "m").addFunction "f" ⟨[.ptr (.int .w8)], .void, false⟩ false
  have h := h.block ⟨0⟩ none rfl
  have h := h.inst ⟨0⟩ .fadd [⟨1⟩, ⟨1⟩] .f64 rfl
  have h := h.inst ⟨0⟩ .ptrToInt [⟨1⟩] (.uint .w64) rfl
  have h := h.inst ⟨0⟩ .intToPtr [⟨4⟩] (.ptr (.int .w8)) rfl
  exact h

/-- Whether a session goes on after some operations, to a state that passes a test. -/
def goesOn (env : Env) (p : State → Bool) : List Operation → State → Bool
  | [], s => p s
  | op :: ops, s =>
    match op.run env s with
    | .ok _ t => goesOn env p ops t
    | .error e t => e.isRefusal && goesOn env p ops t

theorem later_of_goesOn {p : State → Bool} {ops : List Operation}
    (h : goesOn env p ops s = true) :
    ∃ t, Later env s t ∧ p t = true := by
  induction ops generalizing s with
  | nil => exact ⟨s, .refl, h⟩
  | cons op ops ih =>
    unfold goesOn at h
    split at h
    · next u t hrun =>
      obtain ⟨t', ht', hp⟩ := ih h
      exact ⟨t', .head ⟨op, .inl hrun⟩ ht', hp⟩
    · next e t hfail =>
      rw [Bool.and_eq_true] at h
      obtain ⟨t', ht', hp⟩ := ih h.2
      exact ⟨t', .head ⟨op, .inr ⟨e, h.1, hfail⟩⟩ ht', hp⟩

/-- Two values are bound to one operand, and ids tell operands apart. -/
def State.bindsBoth (s : State) (v w : ValueId) (id : OperandId) : Bool :=
  s.values.find? v = some id && s.values.find? w =
    some id && s.current.any (·.machine.operands.size ≤ 2 ^ 32)

/-- The pointer that comes back shares the register of the parameter. -/
theorem roundTrip_shared :
    ∃ s t, Runs (beginFunction ⟨0⟩) ⟨roundTrip, .win64⟩ (.initial "m") () s ∧
      Later ⟨roundTrip, .win64⟩ s t ∧
      t.values.find? ⟨1⟩ = some ⟨0⟩ ∧ t.values.find? ⟨5⟩ = some ⟨0⟩ ∧
      Runs (resolve ⟨5⟩) ⟨roundTrip, .win64⟩ t ⟨0⟩ t ∧ roundTrip.Connected ⟨1⟩ ⟨5⟩ := by
  obtain ⟨_, s, hbegin, hrest⟩ := runs_of_leaves
    (show leaves (beginFunction ⟨0⟩) ⟨roundTrip, .win64⟩ (.initial "m") (fun _ s =>
      goesOn ⟨roundTrip, .win64⟩ (·.bindsBoth ⟨1⟩ ⟨5⟩ ⟨0⟩)
        [.enter ⟨0⟩, .lowerInst ⟨0⟩, .lowerInst ⟨1⟩, .resolve ⟨1⟩, .lowerInst ⟨2⟩,
          .layOut ⟨0⟩] s) = true by
      decide +kernel)
  obtain ⟨t, ht, hbinds⟩ := later_of_goesOn hrest
  simp only [State.bindsBoth, Bool.and_eq_true, decide_eq_true_eq] at hbinds
  obtain ⟨⟨hp, hq⟩, hsize⟩ := hbinds
  have hsmall : t.Small := fun c hc => by simpa [hc] using hsize
  have honce :=
    @bindings_written_once ⟨roundTrip, .win64⟩ _ _ _ _ built_roundTrip (by decide)
      hbegin ht
  exact ⟨s, t, hbegin, ht, hp, hq, (honce.memoized _ _ hq t .refl).2,
    honce.shared hsmall _ _ _ hp hq⟩

end InstSelect.Lowering
