import InstSelect.Proofs.OperandWidths

/-!
# Where values are kept

A value that was lowered stays bound to one operand, and code that comes later reads it
there. Physical registers are overwritten all the time, so the operands that values are
bound to should not name them. The incoming arguments do, and are saved where they are
endangered. All other values are bound to operands that outlast any code that follows:
constants, addresses, and virtual registers that are numbered already.
-/

namespace InstSelect.Machine

variable {n : Nat}

/--
An operand whose value is neither in memory nor in a physical register, nor in a virtual
register from `n` on. Where it names memory, it stands for the address.
-/
structure Operand.Lasting (n : Nat) (o : Operand) : Prop where
  steady : o.Steady n
  virtual : ∀ r, o.form ≠ .phys r
  address : o.needsAddress = true → o.storage = .ptr

theorem Operand.Lasting.mono {m : Nat} {o : Operand} (h : o.Lasting n) (hle : n ≤ m) :
    o.Lasting m :=
  ⟨h.steady.mono hle, h.virtual, h.address⟩

theorem lasting_virt {r : VReg} {st : Storage} (hr : r.index.toNat < n) :
    Operand.Lasting n ⟨.virt r, st⟩ :=
  ⟨hr, nofun, nofun⟩

theorem lasting_slot {slot : SlotId} {size : UInt64} {align : UInt32} :
    Operand.Lasting n ⟨.slot slot size align, .ptr⟩ :=
  ⟨trivial, nofun, fun _ => rfl⟩

end InstSelect.Machine

namespace InstSelect.Lowering

open IR (ValueId InstId Inst)
open Machine (Operand OperandId)

variable {env : Env} {func : IR.FuncId} {s s' t : State} {c c' : Current} {v : ValueId}
  {id : OperandId} {P : State → ValueId → OperandId → Prop} {n b : Nat}
  {code : List Machine.Code} {o : Operand} {i : Inst}

/-! ## Properties of bound operands -/

/-- All values and the ids that they are bound to have a property. -/
def State.AllBound (s : State) (P : State → ValueId → OperandId → Prop) : Prop :=
  ∀ v id, s.values.find? v = some id → P s v id

/-- A property of values and ids that leaves have, and that is not lost later. -/
structure Kept (env : Env) (P : State → ValueId → OperandId → Prop) : Prop where
  leads : ∀ {s s' c c' v id}, s.current = some c → s'.current = some c' →
    Leads s s' c c' →
    c'.machine.args = c.machine.args → P s v id → P s' v id
  leaf : ∀ {s c v id}, s.current = some c → Leaf env s c v id → P s v id

namespace Kept

/-- Bindings that were there keep the property, so only new ones have to be looked at. -/
theorem persist (hP : Kept env P) (hc : s.current = some c) (hc' : s'.current = some c')
    (hleads : Leads s s' c c') (hargs : c'.machine.args = c.machine.args)
    (h : s.AllBound P)
    (hnew : ∀ v id, s'.values.find? v = some id →
      s.values.find? v = some id ∨ P s' v id) : s'.AllBound P := by
  intro v id hv
  rcases hnew v id hv with hold | hid
  · exact hP.leads hc hc' hleads hargs (h v id hold)
  · exact hid

theorem grow (hP : Kept env P) (hc : s.current = some c) (h : s.AllBound P)
    (hg : Grow env s s' code) : s'.AllBound P := by
  obtain ⟨c', hc', hgrown⟩ := hg.grown hc
  have hleads := Leads.of_grown hgrown
  refine hP.persist hc hc' hleads hgrown.args h fun v id hv => ?_
  cases hg with
  | @value d v' id' current unbound leaf =>
    cases hc.symm.trans current
    rw [Bindings.find?_insert] at hv
    split at hv
    · next heq =>
      subst heq
      cases hv
      exact .inr (hP.leads hc hc' hleads hgrown.args (hP.leaf hc leaf))
    · exact .inl hv
  | operand | inst | block | reserve => exact .inl hv

/-- Whatever selection does within an instruction, it binds leaves only. -/
theorem follows (hP : Kept env P) (hc : s.current = some c) (h : s.AllBound P)
    (hf : Follows env s s') :
    s'.AllBound P := by
  induction hf generalizing c with
  | refl => exact h
  | grow hg => exact hP.grow hc h hg
  | @edit s d blocks current size names =>
    have hleads : Leads s (s.withMachine d { d.machine with blocks }) d
        { d with machine := { d.machine with blocks } } :=
      { Leads.refl s d with room := Nat.le_of_eq size.symm }
    exact hP.persist current rfl hleads rfl h fun _ _ hv => .inl hv
  | trans hf _ ih ih' =>
    obtain ⟨d, hd, -⟩ := hf.grown hc
    exact ih' hd (ih hc h)

/-- One more value is bound, to an id with the property. -/
theorem bind {ps : List InstId} (hP : Kept env P) (hc : s.current = some c)
    (h : s.AllBound P) (hunbound : s.values.find? v = none) (hid : P s v id) :
    State.AllBound { s with values := s.values.insert v id, pendingPhis := ps } P := by
  have hleads : Leads s { s with values := s.values.insert v id, pendingPhis := ps }
      c c :=
    { Leads.refl s c with values := fun _ _ hw => find?_insert_of_unbound hunbound hw }
  refine hP.persist hc hc hleads rfl h fun w x hw => ?_
  rw [Bindings.find?_insert] at hw
  split at hw
  · next heq =>
    cases hw
    exact .inr (heq ▸ hP.leads hc hc hleads rfl hid)
  · exact .inl hw

/--
The states of a lowering bind leaves, and the results of instructions. A property that
every result has, once all that is bound before has it, is one that all bound operands
have.
-/
theorem reached (hP : Kept env P)
    (hselect : ∀ {s s' k i id}, Reached env func s → s.AllBound P →
      env.module.inst k = .ok i →
      Runs (selectInst k i) env s (some id) s' → P s' i.value id)
    (hphi : ∀ {s s' st k i id}, Reached env func s → env.module.inst k = .ok i →
      Runs (newVReg st) env s id s' →
      P s' i.value id)
    (hs : Reached env func s) : s.AllBound P := by
  induction hs with
  | opened run =>
    obtain ⟨f, m, -, -, rfl⟩ := runs_beginFunction run
    intro v id hv
    cases hv
  | @entered s t s' b mb u before block run ih =>
    obtain ⟨c, hc⟩ := before.settled
    obtain ⟨hpath, -⟩ := blockFor_path block
    obtain ⟨d, hd, -⟩ := (Follows.of_path hpath).grown hc.current
    obtain rfl := runs_setInsertionBlock.mp run
    have hleads : Leads t
      { t with current := t.current.map ({ · with block := some mb }) } d
        { d with block := some mb } := { Leads.refl t d with }
    exact hP.persist hd (by rw [hd]; rfl) hleads rfl
      (hP.follows hc.current ih (.of_path hpath)) fun _ _ hv => .inl hv
  | @lowered s s' k u before run ih =>
    obtain ⟨c, hc⟩ := before.settled
    obtain ⟨i, r, t, hi, hsel, hbind⟩ := runs_lowerInst run
    by_cases hop : i.opcode = .phi
    · simp only [selectInst, hop] at hsel
      obtain ⟨rfl, w, hphiRun⟩ := none_map hsel
      subst hbind
      obtain ⟨st, dst, t, -, hnew, hunbound, rfl⟩ := runs_lowerPhi hphiRun
      obtain ⟨-, -, -, hpath, -⟩ := newVReg_stands hnew
      obtain ⟨d, hd, -⟩ := (Follows.of_path hpath).grown hc.current
      exact hP.bind hd (hP.follows hc.current ih (.of_path hpath)) hunbound
        (hphi before hi hnew)
    · have hu : Underway env s.vregs s := ⟨⟨c, hc⟩, Nat.le_refl _⟩
      obtain ⟨_, ⟨code, hpath, -⟩, -⟩ := selectInst_tidily hop hu hsel
      obtain ⟨d, hd, -⟩ := (Follows.of_path hpath).grown hc.current
      have ht := hP.follows hc.current ih (.of_path hpath)
      cases r with
      | none =>
        subst hbind
        exact ht
      | some x =>
        obtain ⟨hunbound, rfl⟩ := hbind
        exact hP.bind hd ht hunbound (hselect before ih hi hsel)
  | resolved before run ih =>
    obtain ⟨c, hc⟩ := before.settled
    exact hP.follows hc.current ih (.of_path (resolve_path run).1)
  | @laidOut s s' mb u before run ih =>
    obtain ⟨c, hc⟩ := before.settled
    obtain ⟨d, f, hd, happend, rfl⟩ := runs_change.mp run
    obtain ⟨-, -, -, -, rfl⟩ := Machine.Function.appendBlock_eq_ok.mp happend
    have hleads : Leads s
      (s.withMachine d { d.machine with layout := d.machine.layout ++ [mb] }) d
        { d with machine := { d.machine with layout := d.machine.layout ++ [mb] } } :=
      { Leads.refl s d with }
    exact hP.persist hd rfl hleads rfl ih fun _ _ hv => .inl hv

end Kept

/-! ## Places that last -/

/-- A constant of a word. -/
def WordOf (m : IR.Module) (v : ValueId) (n : Int64) : Prop :=
  ∃ ty k, m.value v = .ok ⟨ty, .constant k⟩ ∧ constantWord? k = some n

/-- An operand that lasts; an immediate is that of the constant. -/
structure Houses (m : IR.Module) (n : Nat) (v : ValueId) (o : Operand) : Prop where
  lasting : o.Lasting n
  constant : ∀ k, o.form = .imm k → WordOf m v k

/--
A value bound to an incoming argument, or to an id that stands for a lasting operand.
-/
def Lodged (env : Env) (n : Nat) (s : State) (v : ValueId) (id : OperandId) : Prop :=
  (∃ c, s.current = some c ∧ id ∈ c.machine.args) ∨ s.Stands id (Houses env.module n v)

theorem Lodged.leads (hc : s.current = some c) (hc' : s'.current = some c')
    (hleads : Leads s s' c c') (hargs : c'.machine.args = c.machine.args)
    (h : Lodged env n s v id) :
    Lodged env n s' v id := by
  rcases h with ⟨d, hd, hid⟩ | hid
  · cases hc.symm.trans hd
    exact .inl ⟨c', hc', hargs ▸ hid⟩
  · exact .inr (hleads.stands hc hc' hid)

theorem Lodged.mono {m : Nat} (h : Lodged env n s v id) (hle : n ≤ m) :
    Lodged env m s v id :=
  h.imp_right fun hid => hid.imp fun _ ho => ⟨ho.lasting.mono hle, ho.constant⟩

/-- Leaves name no register but those of arguments. -/
theorem lodged_leaf (hc : s.current = some c) (h : Leaf env s c v id) :
    Lodged env n s v id := by
  have hnames : ∀ {o : Operand}, c.machine.Names id o → Houses env.module n v o →
      Lodged env n s v id :=
    fun hn ho =>
      .inr ((State.Stands.of_get hc fun A hA => hn.get? (hA c hc)).imp fun _ heq =>
        heq ▸ ho)
  cases h with
  | argument ty index value arg => exact .inl ⟨c, hc, List.mem_of_getElem? arg⟩
  | constant ty k n st value word storage names =>
    refine hnames names ⟨⟨trivial, nofun, nofun⟩, fun k hk => ?_⟩
    cases hk
    exact ⟨ty, _, value, word⟩
  | function ty g f name value function symbol names
  | global ty g data value global names =>
    exact hnames names ⟨⟨trivial, nofun, fun _ => rfl⟩, nofun⟩
  | block ty b mb value block names =>
    exact hnames names ⟨⟨trivial, nofun, nofun⟩, nofun⟩

/-- Within an instruction, no value is bound to a register that is numbered for it. -/
theorem kept_lodged (n : Nat) : Kept env (Lodged env n) := ⟨Lodged.leads, lodged_leaf⟩

theorem kept_lodged_vregs : Kept env fun s => Lodged env s.vregs s where
  leads hc hc' hleads hargs h := by
    refine (h.leads hc hc' hleads hargs).mono ?_
    rw [State.vregs_eq hc, State.vregs_eq hc']
    exact hleads.vregs
  leaf := lodged_leaf

/-- Registers that are there are below the next number. -/
theorem houses_of_answer (h : Answer b o) (hbelow : o.Below n) :
    Houses env.module n v o := by
  obtain ⟨form, st⟩ := o
  rcases h with ⟨r, rfl, -⟩ | ⟨slot, size, align, heq⟩
  · exact ⟨Machine.lasting_virt (hbelow r (by simp [Operand.vregs])),
      fun _ hform => by cases hform⟩
  · rw [heq]
    exact ⟨Machine.lasting_slot, fun _ hform => by cases hform⟩

theorem lodged_of_answer (hu : Underway env b s) (h : s.Stands id (Answer b)) :
    Lodged env s.vregs s v id := by
  obtain ⟨c, hc⟩ := hu.settled
  refine .inr fun hsmall => ?_
  obtain ⟨o, ho, hanswer⟩ := h hsmall
  exact ⟨o, ho, houses_of_answer hanswer (hc.below ho)⟩

/-- A register may be taken for any other value. -/
theorem Lodged.register {w : ValueId} (h : Lodged env n s v id) (ho : s.Holds id o)
    (hregister : o.isRegister = true) : Lodged env n s w id := by
  refine h.imp_right fun hid hsmall => ?_
  obtain ⟨o', ho', hlasting, -⟩ := hid hsmall
  cases ho.unique ho'
  refine ⟨o, ho, hlasting, fun k hk => ?_⟩
  simp [Operand.isRegister, hk] at hregister

/--
A value that is only viewed otherwise stays where it is, or gets a register of its own.
-/
theorem lowerReinterpret_lodged (hu : Underway env b s)
    (h : s.AllBound (fun s => Lodged env s.vregs s))
    (hrun : Runs (lowerReinterpret i) env s id s') : Lodged env s'.vregs s' v id := by
  simp only [lowerReinterpret, runs_bind, runs_check] at hrun
  obtain ⟨_, _, ⟨-, rfl⟩, x, _, ⟨-, rfl⟩, r, t, hresolve, hinto⟩ := hrun
  obtain ⟨hpath, -, hbound⟩ := resolve_path hresolve
  obtain ⟨c, hc⟩ := hu.settled
  have hut := hu.path hpath
  simp only [intoRegister, runs_bind] at hinto
  obtain ⟨o, _, ho, hinto⟩ := hinto
  obtain ⟨rfl, hholds⟩ := holds_of_operand ho
  split at hinto
  · next hregister =>
    obtain ⟨rfl, rfl⟩ := runs_pure.mp hinto
    exact (kept_lodged_vregs.follows hc.current h (.of_path hpath) x r hbound).register
      hholds hregister
  · obtain ⟨⟨_, hcopy, -⟩, hfresh⟩ := copyToVReg_tidily hut hinto
    exact lodged_of_answer (hut.path hcopy) (hfresh.imp fun _ => .inl)

theorem selectInst_lodged {k : InstId} (hs : ∃ c, Settled env s c)
    (h : s.AllBound (fun s => Lodged env s.vregs s))
    (hrun : Runs (selectInst k i) env s (some id) s') :
    Lodged env s'.vregs s' v id := by
  have hu : Underway env s.vregs s := ⟨hs, Nat.le_refl _⟩
  cases hop : i.opcode.isReinterpret with
  | true =>
    rw [selectInst_reinterpret k hop] at hrun
    obtain ⟨a, heq, hrun⟩ := some_map hrun
    cases heq
    exact lowerReinterpret_lodged hu h hrun
  | false =>
    have hphi : i.opcode ≠ .phi := by
      intro hphi
      simp only [selectInst, hphi] at hrun
      cases (none_map hrun).1
    obtain ⟨_, ⟨_, hpath, -⟩, -, hanswers⟩ := selectInst_tidily hphi hu hrun
    exact lodged_of_answer (hu.path hpath) ((hanswers id rfl).imp fun _ ho => ho.own hop)

/--
Between any two instructions, values are bound to arguments or to operands that last.
-/
theorem Reached.lodged (h : Reached env func s) : s.AllBound (Lodged env s.vregs) := by
  refine Kept.reached (P := fun s => Lodged env s.vregs s) kept_lodged_vregs
    (fun before hbound _ hrun => selectInst_lodged before.settled hbound hrun)
    (fun _ _ hnew => ?_) h
  obtain ⟨r, hr, hvregs, -, hid⟩ := newVReg_stands hnew
  refine .inr (hid.imp ?_)
  rintro o rfl
  exact ⟨Machine.lasting_virt (by omega), nofun⟩

/--
A constant that no instruction claims for its result is bound to an immediate of its word.
-/
def Spelled (env : Env) (s : State) (v : ValueId) (id : OperandId) : Prop :=
  (∀ k i, env.module.inst k = .ok i → i.value ≠ v) →
    ∀ ty k, env.module.value v = .ok ⟨ty, .constant k⟩ →
    s.Stands id fun o => ∃ n, constantWord? k = some n ∧ o.form = .imm n

theorem kept_spelled : Kept env (Spelled env) where
  leads hc hc' hleads _ h hfree ty k hv := hleads.stands hc hc' (h hfree ty k hv)
  leaf := by
    intro s c v id hc hleaf _ ty k hv
    cases hleaf with
    | constant ty' k' n st value word storage names =>
      cases hv.symm.trans value
      exact (State.Stands.of_get hc fun A hA => names.get? (hA c hc)).imp fun _ heq =>
        heq ▸ ⟨n, word, rfl⟩
    | argument ty' index value => cases hv.symm.trans value
    | function ty' g f name value => cases hv.symm.trans value
    | global ty' g data value => cases hv.symm.trans value
    | block ty' b mb value => cases hv.symm.trans value

theorem Reached.spelled (h : Reached env func s) : s.AllBound (Spelled env) := by
  have hinst : ∀ {s k i id}, env.module.inst k = .ok i → Spelled env s i.value id :=
    fun hi hfree => absurd rfl (hfree _ _ hi)
  exact kept_spelled.reached (fun _ _ hi _ => hinst hi) (fun _ hi _ => hinst hi) h

/--
The values that an instruction reads are available before its code; immediates are those
of constants.
-/
theorem Reached.source (h : Reached env func s) (hp : Path env s s' code)
    (hsmall : s'.Small) (hv : s'.values.find? v = some id) (ho : s'.Holds id o) :
    o.Source s.vregs o.width ∧ ∀ k, o.form = .imm k → WordOf env.module v k := by
  obtain ⟨c, hc⟩ := h.settled
  obtain ⟨c', hc'⟩ := hc.later (.of_path hp)
  rcases (kept_lodged s.vregs).follows hc.current h.lodged (.of_path hp) v id hv with
    ⟨d, hd, hid⟩ | hid
  · cases hc'.current.symm.trans hd
    obtain ⟨r, st, hr⟩ := hc'.args id hid
    cases ho.unique hr
    exact ⟨⟨trivial, rfl, nofun⟩, nofun⟩
  · obtain ⟨o', ho', hlasting, hconstant⟩ := hid hsmall
    cases ho.unique ho'
    refine ⟨⟨hlasting.steady, rfl, fun haddr => ?_⟩, hconstant⟩
    rw [Operand.width, hlasting.address haddr]
    rfl

end InstSelect.Lowering
