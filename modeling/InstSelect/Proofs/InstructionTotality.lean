import InstSelect.Proofs.Totality
import InstSelect.Proofs.WellTyped

/-!
# Instructions that cannot fail

Total specifications of the routines that select code for one instruction. What they ask
for is that the operands of the instruction are available at the right widths; what they
promise is that the result is in a register of the width of its type.
-/

namespace InstSelect.Lowering

open IR (ValueId Inst)
open Machine (Storage Operand OperandId Op PhysReg Reg VReg Address)

variable {J : Job} {S : Stage} {env : Env} {s t : State} {α β : Type} {n m w : Nat}
  {id y : OperandId} {o ox oy d : Operand} {v x r l gep p index base : ValueId}
  {i : Inst} {c : Current} {st : Storage} {ty element : IR.Ty} {op : Op}
  {signed right remainder : Bool} {address : Partial} {offset total k : Int64}
  {size : UInt64} {regs : List PhysReg} {opcode : IR.Opcode} {e : IR.Extent}
  {indices : List ValueId} {sts : List Storage}

/-! ## Loops -/

/-- A loop whose rounds cannot fail at any later state. -/
theorem Total.forM_sum {as : List α} {f : α → LowerM PUnit} {cost : α → Nat}
    (hf : ∀ a ∈ as, ∀ t, Follows J.env s t → Total J (cost a) t (f a) fun _ _ => True) :
    Total J (as.map cost).sum s (as.forM f) fun _ _ => True := by
  induction as generalizing s with
  | nil => exact .pure trivial
  | cons a as ih =>
    rw [List.map_cons, List.sum_cons]
    refine Total.seq (hf a List.mem_cons_self s (.refl _)) fun _ t hst =>
      ih fun b hb u hu => ?_
    exact hf b (List.mem_cons_of_mem _ hb) u (hst.trans hu)

/-- A loop whose rounds all cost the same. -/
theorem Total.forM {as : List α} {f : α → LowerM PUnit}
    (hf : ∀ a ∈ as, ∀ t, Follows J.env s t → Total J n t (f a) fun _ _ => True) :
    Total J (as.length * n) s (as.forM f) fun _ _ => True := by
  have hloop := Total.forM_sum hf
  rwa [List.map_const', List.sum_replicate_nat] at hloop

/-- The same where the rounds have results that stay what they are. -/
theorem Total.mapM {as : List α} {f : α → LowerM β} {P : β → State → Prop}
    (hP : ∀ b t u, P b t → Follows J.env t u → P b u)
    (hf : ∀ a ∈ as, ∀ t, Follows J.env s t → Total J n t (f a) P) :
    Total J (as.length * n) s (as.mapM f) fun bs t => ∀ b ∈ bs, P b t := by
  induction as generalizing s with
  | nil =>
    rw [List.mapM_nil]
    exact .pure fun b hb => by cases hb
  | cons a as ih =>
    rw [List.length_cons, Nat.succ_mul, Nat.add_comm, List.mapM_cons]
    refine Total.bind (hf a List.mem_cons_self s (.refl _)) fun b t hst hb => ?_
    refine Total.bind (m := 0) (ih fun a' ha' u hu => ?_) fun bs u htu hbs => .pure ?_
    · exact hf a' (List.mem_cons_of_mem _ ha') u (hst.trans hu)
    · intro b' hb'
      rcases List.mem_cons.mp hb' with rfl | hb'
      · exact hP b' t u hb htu
      · exact hbs b' hb'

/-- A filter whose test only reads the state. -/
theorem runs_filterM_of_reads (env : Env) (p : α → LowerM Bool) (as : List α)
    (hp : ∀ a ∈ as, ∃ b, Runs (p a) env s b s) :
    ∃ xs, Runs (as.filterM p) env s xs s ∧ xs.length ≤ as.length ∧ ∀ x ∈ xs, x ∈ as := by
  have haux : ∀ (as acc : List α), (∀ a ∈ as, ∃ b, Runs (p a) env s b s) →
      ∃ xs, Runs (as.filterAuxM p acc) env s xs s ∧ xs.length ≤ as.length + acc.length ∧
        ∀ x ∈ xs, x ∈ as ∨ x ∈ acc := by
    intro as
    induction as with
    | nil =>
      intro acc _
      exact ⟨acc, runs_pure.mpr ⟨rfl, rfl⟩, Nat.le_add_left _ _, fun x hx => .inr hx⟩
    | cons a as ih =>
      intro acc hp
      obtain ⟨b, hb⟩ := hp a List.mem_cons_self
      obtain ⟨xs, hxs, hlen, hmem⟩ := ih (cond b (a :: acc) acc) fun a' ha' =>
        hp a' (List.mem_cons_of_mem _ ha')
      refine ⟨xs, runs_bind.mpr ⟨b, s, hb, hxs⟩, ?_, fun x hx => ?_⟩
      · cases b <;> simp only [cond, List.length_cons] at hlen ⊢ <;> omega
      · rcases hmem x hx with h | h
        · exact .inl (List.mem_cons_of_mem _ h)
        · cases b with
          | false => exact .inr h
          | true =>
            rcases List.mem_cons.mp h with rfl | h
            · exact .inl List.mem_cons_self
            · exact .inr h
  obtain ⟨xs, hxs, hlen, hmem⟩ := haux as [] hp
  refine ⟨xs.reverse, ?_, by simpa using hlen, fun x hx => ?_⟩
  · rw [List.filterM]
    exact runs_bind.mpr ⟨xs, s, hxs, runs_pure.mpr ⟨rfl, rfl⟩⟩
  · exact (hmem x (List.mem_reverse.mp hx)).resolve_right (by simp)

/-! ## Saved arguments -/

/-- The incoming arguments are in registers, and there are at most four. -/
theorem Ready.args (h : Ready J s c) (hroom : s.size < 2 ^ 32) :
    c.machine.args.length ≤ 4 ∧
      ∀ id ∈ c.machine.args, ∃ r st, s.Holds id ⟨.phys r, st⟩ := by
  obtain ⟨sts, hs⟩ := h.session
  have hlen : c.machine.args.length ≤ 4 := by
    have hargs := hs.args.length_eq
    have hregs := (placed_incoming sts).regs.length_le
    rw [List.length_map] at hargs hregs
    exact hargs ▸ hregs
  refine ⟨hlen, fun id hid => ?_⟩
  obtain ⟨k, hk, rfl⟩ := List.mem_iff_getElem.mp hid
  have hk' := hs.args.length_eq ▸ hk
  have hname := hs.args.get hk hk'
  rw [List.get_eq_getElem, List.get_eq_getElem, List.getElem_map] at hname
  exact ⟨_, _, h.holds hroom hname⟩

theorem shadowSlot_total {j : Nat} (hj : j < 4) (st : Storage) :
    Total J 1 s (shadowSlot j st) fun id t => ∃ a, t.Holds id ⟨.mem a, st⟩ := by
  refine .theAbi (.checkWord (shadowDisp_win64 hj) ?_)
  refine (mem_total st fun r hr => ?_).mono (Nat.le_refl _) fun _ _ _ ho => ⟨_, ho⟩
  -- The frame base is a physical register.
  rcases List.mem_cons.mp hr with hr | hr
  · cases hr
  · cases hr

/-- An argument in its register and the slot it was saved to. -/
def Saved (x : OperandId × OperandId) (t : State) : Prop :=
  ∃ r a st, t.Holds x.1 ⟨.phys r, st⟩ ∧ t.Holds x.2 ⟨.mem a, st⟩

theorem saveArg_total {x : OperandId × Nat} {r : PhysReg} (ho : s.Holds x.1 ⟨.phys r, st⟩)
    (hj : x.2 < 4) :
    Total J 1 s (saveArg x) Saved := by
  refine .storage ho ((shadowSlot_total hj st).next fun slot t hf hslot => ?_)
  obtain ⟨a, hslot⟩ := hslot
  refine .emits (.cons hslot (.cons (ho.later hf) .nil)) rfl fun u hf' => ?_
  exact .pure ⟨r, a, st, (ho.later hf).later hf', hslot.later hf'⟩

theorem reloadArg_total {x : OperandId × OperandId} (hx : Saved x s) :
    Total J 0 s (reloadArg x) fun _ _ => True := by
  obtain ⟨r, a, st, hreg, hslot⟩ := hx
  exact emit_total (.cons hreg (.cons hslot .nil)) rfl

theorem Saved.later {x : OperandId × OperandId} (hx : Saved x s)
    (hf : Follows J.env s t) :
    Saved x t := by
  obtain ⟨r, a, st, hreg, hslot⟩ := hx
  exact ⟨r, a, st, hreg.later hf, hslot.later hf⟩

/-- The arguments to be saved are read off the state. -/
theorem argsIn_runs (hc : Ready J s c) (hroom : s.size < 2 ^ 32) (regs : List PhysReg) :
    ∃ xs, Runs (argsIn regs) J.env s xs s ∧ xs.length ≤ 4 ∧
      ∀ x ∈ xs, x.2 < 4 ∧ ∃ r st, s.Holds x.1 ⟨.phys r, st⟩ := by
  obtain ⟨hlen, hargs⟩ := hc.args hroom
  have hmem : ∀ x ∈ c.machine.args.zipIdx, x.2 < 4 ∧
      ∃ r st, s.Holds x.1 ⟨.phys r, st⟩ := by
    intro x hx
    obtain ⟨hid, hj⟩ := List.mem_zipIdx_iff_getElem?.mp hx |> List.getElem?_eq_some_iff.mp
    exact ⟨Nat.lt_of_lt_of_le hid hlen, hargs x.1 (hj ▸ List.getElem_mem hid)⟩
  have hreads : ∀ x ∈ c.machine.args.zipIdx, ∃ b, Runs (livesIn regs x) J.env s b s := by
    intro x hx
    obtain ⟨-, r, st, c', hc', ho⟩ := hmem x hx
    refine ⟨regs.contains r,
      runs_bind.mpr ⟨_, s, runs_operand.mpr ⟨c', hc', ho, rfl⟩, ?_⟩⟩
    exact runs_pure.mpr ⟨rfl, rfl⟩
  obtain ⟨xs, hrun, hlen', hxs⟩ :=
    runs_filterM_of_reads J.env _ c.machine.args.zipIdx hreads
  refine ⟨xs, ?_, ?_, fun x hx => hmem x (hxs x hx)⟩
  · exact runs_bind.mpr ⟨_, s, runs_machine.mpr ⟨c, hc.current, rfl, rfl⟩, hrun⟩
  · rw [List.length_zipIdx] at hlen'
    omega

/-- Code between saves and reloads needs room for four slots more. -/
theorem preserving_total {body : LowerM α} {Q : α → State → Prop}
    (hbody : ∀ t, Follows J.env s t → Total J n t body Q)
    (hQ : ∀ a t u, Q a t → Follows J.env t u → Q a u) :
    Total J (4 + n) s (preserving regs body) Q := by
  intro c hc hroom
  obtain ⟨xs, hrun, hlen, hxs⟩ := argsIn_runs hc (by omega) regs
  have hsave : Total J 4 s (xs.mapM saveArg) fun ys t => ∀ y ∈ ys, Saved y t := by
    have hmapM : Total J (xs.length * 1) s (xs.mapM saveArg) fun ys t =>
        ∀ y ∈ ys, Saved y t :=
      .mapM (fun _ _ _ h hf => Saved.later h hf) fun x hx t hf => by
        obtain ⟨hj, r, st, ho⟩ := hxs x hx
        exact saveArg_total (ho.later hf) hj
    exact hmapM.weaken (by omega)
  have htotal : Total J (4 + n) s (preserving regs body) Q := by
    refine .reading hrun (hsave.bind fun ys t hf hys => ?_)
    refine Total.bind (n := n) (m := 0) (hbody t hf) fun a u hf' ha => ?_
    have hreload : Total J (ys.length * 0) u (ys.forM reloadArg) fun _ _ => True :=
      .forM fun y hy u' hf'' => reloadArg_total (((hys y hy).later hf').later hf'')
    exact .seq (n := 0) (m := 0) (hreload.weaken (Nat.le_of_eq (Nat.mul_zero _)))
      fun _ u' hf'' =>
      .pure (hQ a u u' ha hf'')
  exact htotal c hc hroom

/-! ## Integer instructions -/

/-- An id that holds a register of width `w`. -/
def HasReg (w : Nat) (id : OperandId) (t : State) : Prop := ∃ o, t.Holds id o ∧ o.InReg w

theorem HasReg.later {u : State} (h : HasReg w id t) (hf : Follows env t u) :
    HasReg w id u := by
  obtain ⟨o, ho, hreg⟩ := h
  exact ⟨o, ho.later hf, hreg⟩

theorem hasReg_virt {r : VReg} (h : t.Holds id ⟨.virt r, st⟩) : HasReg st.width id t :=
  ⟨_, h, Operand.inReg_virt r st⟩

theorem scalarStorage_of_width (role : String) (hw : ty.width? = some w) :
    ∃ st, scalarStorage ty role = .ok st ∧ st.width = w := by
  obtain ⟨st, hst, hint, hwidth⟩ := storageOf_of_width hw
  refine ⟨st, ?_, hwidth⟩
  have hfloat : st.isFloat = false := by
    revert hint
    cases st <;> decide
  rw [scalarStorage, hst]
  show (if st.isFloat then _ else _) = _
  rw [hfloat]
  rfl

theorem accepts_binaryOp (hop : Machine.binaryOp? opcode = some op)
    (hd : d.shape = .reg) (ho : o.shape = .reg ∨ op ≠ .imul ∧ o.shape = .imm) :
    op.accepts [d, o] = true := by
  unfold Machine.binaryOp? at hop
  split at hop <;> cases hop <;> rcases ho with ho | ⟨hne, ho⟩ <;>
    simp_all [Op.accepts, Machine.Shape.isPlace, Machine.Shape.isSource]

theorem binarySource_total (ho : s.Holds id o) (hval : o.IsDirect w) :
    Total J 1 s (binarySource op id) fun id' t =>
      ∃ o', t.Holds id' o' ∧ (o'.shape = .reg ∨ op ≠ .imul ∧ o'.shape = .imm) := by
  refine .ite (fun _ => .operand ho (.ite (fun hplace => ?_) fun _ => ?_)) fun hne => ?_
  · refine .pure ⟨o, ho, ?_⟩
    rcases hval.form with hreg | himm
    · exact .inl (Operand.shape_of_isRegister hreg)
    · obtain ⟨form, st⟩ := o
      cases form with
      | imm => cases hplace
      | _ => cases himm
  · exact (copyToVReg_total ho hval.value).mono (Nat.le_refl _)
      fun _ _ _ h => h.imp fun _ h => ⟨h.1, .inl (Operand.shape_of_isRegister h.2.form)⟩
  · exact (aluSource_total ho hval).mono (Nat.le_refl _)
      fun _ _ _ h => h.imp fun _ h => ⟨h.1, h.2.shape.imp_right fun himm => ⟨hne, himm⟩⟩

theorem lowerBinary_total (hop : Machine.binaryOp? opcode = some op)
    (hw : i.ty.width? = some w) (hops : i.operands = [l, r]) (hl : Available J s w l)
    (hr : Available J s w r) : Total J 5 s (lowerBinary op i) (HasReg w) := by
  obtain ⟨st, hst, rfl⟩ := scalarStorage_of_width "arithmetic" hw
  refine .check hst (.check (binaryOperands_eq_ok.mpr hops) ?_)
  refine (resolve_total hl).get fun idl ol s1 f1 hol vall => ?_
  refine (valueOperand_total (hr.later f1)).get fun idr or s2 f2 hor dirr => ?_
  refine .fresh fun dst d s3 f3 hd => ?_
  refine (materialize_total hd ((hol.later f2).later f3) (vall.accepts_copy rfl)).next
    fun _ s4 f4 _ => ?_
  refine (binarySource_total ((hor.later f3).later f4) dirr).get
    fun src o s5 f5 ho hshape => ?_
  have hd5 := (hd.later f4).later f5
  refine .emits (.cons hd5 (.cons ho .nil)) (accepts_binaryOp hop rfl hshape)
    fun s6 f6 => ?_
  exact .pure (hasReg_virt (hd5.later f6))

theorem shiftByRegister_total {dst : OperandId} {d : VReg}
    (hd : s.Holds dst ⟨.virt d, st⟩) (ho : s.Holds id o) (hdir : o.IsDirect w) :
    Total J 6 s (shiftByRegister (shiftOp right signed) dst id) fun _ _ => True := by
  refine .storage ho (preserving_total (n := 2) (fun t f => ?_) fun _ _ _ h _ => h)
  refine (physReg_total .rcx _).next fun rcx s1 f1 hrcx => ?_
  refine .emits (.cons hrcx (.cons ((ho.later f).later f1) .nil)) (hdir.accepts_mov rfl)
    fun s2 f2 => ?_
  refine (physReg_total .rcx .i8).next fun cl s3 f3 hcl => ?_
  refine emit_total
    (.cons ((((hd.later f).later f1).later f2).later f3) (.cons hcl .nil)) ?_
  cases right <;> cases signed <;> rfl

theorem lowerShift_total {a : ValueId} {v : Nat} (hw : i.ty.width? = some w)
    (hops : i.operands = [l, a]) (hl : Available J s w l) (ha : Available J s v a) :
    Total J 10 s (lowerShift right i) (HasReg w) := by
  obtain ⟨st, hst, rfl⟩ := scalarStorage_of_width "shift" hw
  obtain ⟨ty, hty⟩ := hl.valueTy
  refine .check hst (.check (binaryOperands_eq_ok.mpr hops) ?_)
  refine .reading (runs_isSigned.mpr ⟨ty, hty, rfl, rfl⟩) ?_
  refine (resolve_total hl).get fun idl ol s1 f1 hol vall =>
    .fresh fun dst d s2 f2 hd => ?_
  refine (materialize_total hd (hol.later f2) (vall.accepts_copy rfl)).next
    fun _ s3 f3 _ => ?_
  refine (valueOperand_total (((ha.later f1).later f2).later f3)).get
    fun amount o s4 f4 ho hdir => ?_
  have hd4 := (hd.later f3).later f4
  refine .operand ho ?_
  cases o.imm? with
  | some count =>
    refine (imm_total count .i8).next fun k s5 f5 hk => ?_
    refine .emits (.cons (hd4.later f5) (.cons hk .nil)) ?_ fun s6 f6 => ?_
    · cases right <;> cases ty.isSigned <;> rfl
    · exact .pure (hasReg_virt ((hd4.later f5).later f6))
  | none =>
    refine (shiftByRegister_total hd4 ho hdir).next fun _ s5 f5 _ => ?_
    exact .pure (hasReg_virt (hd4.later f5))

/-! ### Comparisons -/

theorem orderOperands_total {cond : Machine.Cond} {x : OperandId} (hx : s.Holds x ox)
    (dx : ox.IsDirect w) (hy : s.Holds y oy) (dy : oy.IsDirect w) :
    Total J 1 s (orderOperands cond x y) fun r t => ∃ a b, t.Holds r.2.1 a ∧
      t.Holds r.2.2 b ∧
      a.InReg w ∧ b.IsDirect w := by
  refine .operand hx (.operand hy ?_)
  cases himm : ox.isImm with
  | false =>
    have hreg : ox.isRegister = true := dx.form.resolve_right (by rw [himm]; decide)
    exact .pure ⟨ox, oy, hx, hy, ⟨dx.width, hreg⟩, dy⟩
  | true =>
    cases himm' : oy.isImm with
    | false =>
      have hreg : oy.isRegister = true := dy.form.resolve_right (by rw [himm']; decide)
      exact .pure ⟨oy, ox, hy, hx, ⟨dy.width, hreg⟩, dx⟩
    | true =>
      refine (copyToVReg_total hx dx.value).get fun x' a t f ha hreg => ?_
      exact .pure ⟨a, oy, ha, hy.later f, hreg, dy⟩

theorem compareSource_total {x : OperandId} (hx : s.Holds x ox) (hreg : ox.InReg w)
    (hy : s.Holds y oy)
    (dy : oy.IsDirect w) : Total J 0 s (compareSource x y) fun id t => ∃ b, t.Holds id b ∧
      b.IsDirect w := by
  refine .operand hx (.operand hy (.ite (fun hmem => ?_) fun _ => .pure ⟨oy, hy, dy⟩))
  -- A register is not in memory.
  have hshape := Operand.shape_of_isRegister hreg.form
  obtain ⟨form, st⟩ := ox
  cases form with
  | phys | virt => cases hmem
  | _ => cases hshape

theorem lowerCompare_total {p : IR.Predicate} (hops : i.operands = [l, r])
    (hty : J.env.module.valueTy l = .ok ty) (hw : ty.width? = some w)
    (hl : Available J s w l)
    (hr : Available J s w r) : Total J 7 s (lowerCompare p i) (HasReg 8) := by
  obtain ⟨st, hst, -⟩ := scalarStorage_of_width "comparison" hw
  refine .check (binaryOperands_eq_ok.mpr hops)
    (.sourceModule (.check hty (.check hst ?_)))
  refine (valueOperand_total hl).get fun idl ol s1 f1 hol dl => ?_
  refine (valueOperand_total (hr.later f1)).get fun idr or s2 f2 hor dr => ?_
  refine (orderOperands_total (hol.later f2) dl hor dr).next fun order s3 f3 hpost => ?_
  obtain ⟨cond, x, y⟩ := order
  obtain ⟨a, b, ha, hb, rega, dirb⟩ := hpost
  refine (compareSource_total ha rega hb dirb).get fun y' b' s4 f4 hb' dirb' => ?_
  refine (aluSource_total hb' dirb').get fun y'' b'' s5 f5 hb'' dirb'' => ?_
  have hcmp : Op.cmp.accepts [a, b''] = true := by
    have hshape := Operand.shape_of_isRegister rega.form
    rcases dirb''.shape with h | h <;>
      simp [Op.accepts, hshape, h, Machine.Shape.isPlace, Machine.Shape.isSource]
  refine .emits (.cons ((ha.later f4).later f5) (.cons hb'' .nil)) hcmp fun s6 f6 => ?_
  refine .fresh fun dst d s7 f7 hd => .emits (.cons hd .nil) rfl fun s8 f8 => ?_
  exact .pure (hasReg_virt (hd.later f8))

/-! ### Conversions -/

theorem lowerTrunc_total {v : Nat} (hw : i.ty.width? = some w) (hops : i.operands = [x])
    (hx : Available J s v x) (hlt : w < v) : Total J 4 s (lowerTrunc i) (HasReg w) := by
  obtain ⟨st, hst, rfl⟩ := scalarStorage_of_width "truncation" hw
  refine .check hst (.check (unaryOperand_eq_ok.mpr hops) ?_)
  refine (valueOperand_total hx).get fun src o s1 f1 ho hdir => ?_
  have hnarrow : decide (st.bits < o.storage.bits) = true := by
    have hlt' : st.width < o.width := by rwa [hdir.width]
    exact decide_eq_true (UInt32.lt_iff_toNat_lt.mpr hlt')
  refine .operand ho (.require hnarrow ?_)
  cases himm : o.imm? with
  | some k => exact (imm_total _ st).next fun src' s2 f2 ho' => .fill ho' fun _ => rfl
  | none =>
    exact .reading (runs_pure.mpr ⟨rfl, rfl⟩) (.fill ho fun _ => hdir.accepts_mov rfl)

theorem accepts_extension (hop : op = .movzx ∨ op = .movsx) (hd : d.shape = .reg)
    (ho : o.shape = .reg) (hlt : o.width < d.width) : op.accepts [d, o] = true := by
  have hbits : o.storage.bits < d.storage.bits := UInt32.lt_iff_toNat_lt.mpr hlt
  rcases hop with rfl | rfl <;> simp [Op.accepts, hd, ho, hbits, Machine.Shape.isPlace]

theorem lowerExtend_total {v : Nat} (hop : op = .movzx ∨ op = .movsx)
    (hw : i.ty.width? = some w) (hops : i.operands = [x]) (hx : Available J s v x)
    (hlt : v < w) :
    Total J 4 s (lowerExtend op i) (HasReg w) := by
  obtain ⟨st, hst, rfl⟩ := scalarStorage_of_width "extension" hw
  refine .check hst (.check (unaryOperand_eq_ok.mpr hops) ?_)
  refine (valueOperand_total hx).get fun src o s1 f1 ho hdir => ?_
  have hwiden : decide (o.storage.bits < st.bits) = true := by
    have hlt' : o.width < st.width := by rwa [hdir.width]
    exact decide_eq_true (UInt32.lt_iff_toNat_lt.mpr hlt')
  have hsource : Total J 1 s1 (if o.isImm then copyToVReg src else pure src) (HasReg v) :=
    .ite (fun _ => copyToVReg_total ho hdir.value) fun himm =>
      .pure ⟨o, ho, hdir.width, hdir.form.resolve_right himm⟩
  refine .operand ho
    (.require hwiden (.ite_bind (hsource.get fun src' o' s2 f2 ho' hreg => ?_)))
  exact .fill ho' fun d =>
    accepts_extension hop rfl (Operand.shape_of_isRegister hreg.form)
      (hreg.width.symm ▸ hlt)

theorem lowerReinterpret_total (hw : i.ty.width? = some w) (hops : i.operands = [x])
    (hx : Available J s w x) :
    Total J 2 s (lowerReinterpret i) (HasReg w) := by
  obtain ⟨st, hst, -⟩ := scalarStorage_of_width "reinterpretation" hw
  refine .check hst (.check (unaryOperand_eq_ok.mpr hops) ?_)
  exact (resolve_total hx).get fun id o s1 f1 ho hval => intoRegister_total ho hval

/-! ### Division -/

theorem widen_total (ho : s.Holds id o) (hdir : o.IsDirect w) (hlt : w < st.width) :
    Total J 1 s (widen id st signed) fun id' t => ∃ o', t.Holds id' o' ∧
      o'.IsDirect st.width := by
  refine .operand ho ?_
  cases himm : o.imm? with
  | some k =>
    exact (imm_total _ st).mono (Nat.le_refl _) fun _ _ _ h => ⟨_, h, rfl, .inr rfl⟩
  | none =>
    have hreg : o.isRegister = true := by
      refine hdir.form.resolve_right fun h => ?_
      obtain ⟨form, st'⟩ := o
      cases form with
      | imm => cases himm
      | _ => cases h
    have hacc : ∀ d, (if signed then Op.movsx else .movzx).accepts [⟨.virt d, st⟩, o] =
      true := fun d =>
      accepts_extension (by cases signed <;> simp) rfl (Operand.shape_of_isRegister hreg)
        (hdir.width.symm ▸ hlt)
    exact (Total.fill ho hacc).mono (Nat.le_refl _) fun _ _ _ hpost =>
      hpost.imp fun _ h => ⟨h.1, h.2.direct⟩

theorem divisorOperand_total (ho : s.Holds id o) (hdir : o.IsDirect w) :
    Total J 1 s (divisorOperand id) (HasReg w) := by
  refine .operand ho ?_
  obtain ⟨form, st⟩ := o
  cases form with
  | virt r => exact .pure ⟨_, ho, hdir.width, rfl⟩
  | phys | imm => exact copyToVReg_total ho hdir.value
  | mem | slot | symbol | label => rcases hdir.form with h | h <;> cases h

/-- The classes that divisions compute in have an accumulator extension. -/
theorem signExtension_workStorage {role : String} (hint : ty.isInteger = true)
    (hst : scalarStorage ty role = .ok st) :
    ∃ op, signExtension (workStorage st) = .ok op ∧ op.accepts [] = true := by
  have hst' := storageOf_of_scalarStorage hst
  cases ty with
  | bool => cases hst'; exact ⟨_, rfl, rfl⟩
  | int width | uint width => cases width <;> cases hst' <;> exact ⟨_, rfl, rfl⟩
  | _ => cases hint

theorem dividePair_total {work : Storage} {x : OperandId} {ext : Op} (hx : s.Holds x ox)
    (dx : ox.IsDirect w) (hy : s.Holds y oy) (hreg : oy.isRegister = true)
    (hext : signExtension work = .ok ext) (hacc : ext.accepts [] = true) :
    Total J 3 s (dividePair work signed remainder x y) (HasReg work.width) := by
  have hdivisor : oy.shape.isPlace = true := by rw [Operand.shape_of_isRegister hreg]; rfl
  refine (physReg_total .rax work).next fun low s1 f1 hlow => ?_
  refine (physReg_total .rdx work).next fun high s2 f2 hhigh => ?_
  refine .emits (.cons (hlow.later f2) (.cons ((hx.later f1).later f2) .nil))
    (dx.accepts_mov rfl) fun s3 f3 => ?_
  have hy3 := ((hy.later f1).later f2).later f3
  have hhigh3 := hhigh.later f3
  -- Both ways of dividing leave the pair where it is copied from.
  have hsrc : ∃ r, s3.Holds (if remainder then high else low) ⟨.phys r, work⟩ := by
    cases remainder with
    | true => exact ⟨_, hhigh3⟩
    | false => exact ⟨_, (hlow.later f2).later f3⟩
  obtain ⟨r, hsrc⟩ := hsrc
  cases signed with
  | true =>
    refine .check hext (.emits .nil hacc fun s4 f4 =>
      .emits (.cons (hy3.later f4) .nil) ?_ fun s5 f5 => ?_)
    · simpa [Op.accepts] using hdivisor
    · exact .fill (hsrc.later (f4.trans f5)) fun _ => rfl
  | false =>
    refine .emits (.cons hhigh3 (.cons hhigh3 .nil)) rfl fun s4 f4 =>
      .emits (.cons (hy3.later f4) .nil) ?_ fun s5 f5 => ?_
    · simpa [Op.accepts] using hdivisor
    · exact .fill (hsrc.later (f4.trans f5)) fun _ => rfl

/-- Operands of 8 bits are widened, others are taken as they are. -/
theorem workOperand_total (ho : s.Holds id o) (hdir : o.IsDirect st.width) :
    Total J 1 s
      (if workStorage st = st then pure id else widen id (workStorage st) signed)
      fun id' t => ∃ o', t.Holds id' o' ∧ o'.IsDirect (workStorage st).width := by
  refine .ite (fun hwork => ?_) fun hwork => widen_total ho hdir ?_
  · refine .pure ⟨o, ho, ?_⟩
    rwa [hwork]
  · unfold workStorage at hwork ⊢
    split at hwork
    · next h8 =>
      subst h8
      decide
    · exact absurd rfl hwork

theorem lowerDivision_total (hint : i.ty.isInteger = true) (hw : i.ty.width? = some w)
    (hops : i.operands = [l, r]) (hl : Available J s w l) (hr : Available J s w r) :
    Total J 15 s (lowerDivision remainder i) (HasReg w) := by
  obtain ⟨st, hst, rfl⟩ := scalarStorage_of_width "division" hw
  obtain ⟨ext, hext, hacc⟩ := signExtension_workStorage hint hst
  obtain ⟨ty, hty⟩ := hl.valueTy
  refine .check hst (.check (binaryOperands_eq_ok.mpr hops) ?_)
  refine .reading (runs_isSigned.mpr ⟨ty, hty, rfl, rfl⟩) ?_
  refine (valueOperand_total hl).get fun idl ol s1 f1 hol dl => ?_
  refine (valueOperand_total (hr.later f1)).get fun idr or s2 f2 hor dr => .ite_bind ?_
  refine (workOperand_total (hol.later f2) dl).get fun idl' ol' s3 f3 hol' dl' =>
    .ite_bind ?_
  refine (workOperand_total (hor.later f3) dr).get fun idr' or' s4 f4 hor' dr' => ?_
  refine (divisorOperand_total hor' dr').get fun idr'' or'' s5 f5 hor'' hreg => ?_
  have hpair : Total J 7 s5
    (preserving [.rax, .rdx]
      (dividePair (workStorage st) ty.isSigned remainder idl' idr''))
      (HasReg (workStorage st).width) :=
    preserving_total (n := 3)
      (fun t f => dividePair_total (((hol'.later f4).later f5).later f) dl'
        (hor''.later f) hreg.form hext hacc) fun _ _ _ h hf => HasReg.later h hf
  refine hpair.get fun result o s6 f6 ho hreg' =>
    .ite (fun hwork => .pure ⟨o, ho, ?_⟩) fun _ => ?_
  · rwa [← hwork]
  · exact .fill ho fun _ => hreg'.direct.accepts_mov rfl

/-! ## Memory -/

theorem flattenArray_extent (he : ty.extent = .ok e) (n : UInt64) :
    ∃ e', (flattenArray ty n).1.extent = .ok e' := by
  fun_induction flattenArray ty n generalizing e with
  | case1 n element length ih =>
    rw [IR.Ty.extent] at he
    obtain ⟨inner, hinner, -⟩ := bind_eq_ok.mp he
    exact ih hinner
  | case2 => exact ⟨e, he⟩

theorem lowerAlloca_total {pointee : IR.Ty} (hty : i.ty = .ptr pointee)
    (he : pointee.extent = .ok e) (hcount : J.env.module.AllocaCount i.operands) :
    Total J 1 s (lowerAlloca i) fun id t => ∃ o, t.Holds id o ∧ o.IsValue 64 := by
  obtain ⟨e', he'⟩ := flattenArray_extent he 1
  have hrest : ∀ n : Int64, 0 ≤ n → Total J 1 s (reserveObjects i pointee n)
      fun id t => ∃ o, t.Holds id o ∧ o.IsValue 64 := by
    intro n hn
    refine .require (decide_eq_true hn) (.checkWord he' ?_)
    refine (newSlot_total _ _).mono (Nat.le_refl _) fun _ _ _ hpost => ?_
    obtain ⟨slot, h⟩ := hpost
    exact ⟨_, h, rfl, .inr (.inr ⟨rfl, rfl⟩)⟩
  unfold lowerAlloca allocaCount
  rw [hty]
  generalize i.operands = operands at hcount ⊢
  cases hcount with
  | one => exact .reading (runs_pure.mpr ⟨rfl, rfl⟩) (hrest 1 (by decide))
  | @constant v n value nonneg =>
    refine .reading (a := n) ?_ (hrest n nonneg)
    refine runs_bind.mpr ⟨_, s, runs_sourceModule.mpr ⟨rfl, rfl⟩, ?_⟩
    refine runs_bind.mpr ⟨_, s, runs_check.mpr ⟨value, rfl⟩, ?_⟩
    exact runs_pure.mpr ⟨rfl, rfl⟩

/-- The register of an id that holds one; a virtual one is held by that id. -/
theorem HasReg.regOf (h : HasReg w id s) :
    ∃ r : Reg, Runs (regOf id) env s r s ∧
      ∀ q, r = .virt q → ∃ st, s.Holds id ⟨.virt q, st⟩ := by
  obtain ⟨⟨form, st⟩, ho, -, hreg⟩ := h
  obtain ⟨c, hc, hget⟩ := ho
  cases form with
  | phys r =>
    exact ⟨.phys r, runs_regOf.mpr ⟨_, runs_operand.mpr ⟨c, hc, hget, rfl⟩, rfl⟩,
      fun q hq => by cases hq⟩
  | virt r =>
    refine ⟨.virt r, runs_regOf.mpr ⟨_, runs_operand.mpr ⟨c, hc, hget, rfl⟩, rfl⟩,
      fun q hq => ?_⟩
    cases hq
    exact ⟨st, c, hc, hget⟩
  | _ => cases hreg

theorem memoryAt_total (st : Storage) (h : HasReg w id s) :
    Total S 1 s (memoryAt id st) fun m t => ∃ a, t.Holds m ⟨.mem a, st⟩ := by
  obtain ⟨r, hrun, hvirt⟩ := h.regOf
  refine .reading hrun ((mem_total st fun q hq => ?_).mono (Nat.le_refl _) fun _ _ _ h =>
    ⟨_, h⟩)
  rcases List.mem_cons.mp hq with hq | hq
  · obtain ⟨st', ho⟩ := hvirt q hq.symm
    exact ⟨id, st', ho⟩
  · cases hq

/-- A load succeeds where the address in its operand can be brought into a register. -/
theorem lowerLoad_total_of (hst : byValueStorage i.ty "load" = .ok st)
    (hops : i.operands = [p]) (hp : Total S n s (addressRegister p) (HasReg w)) :
    Total S (2 + n) s (lowerLoad i) (HasReg st.width) := by
  refine .check hst
    (.check (unaryOperand_eq_ok.mpr hops) (hp.next fun base s1 f1 hbase => ?_))
  refine (memoryAt_total st hbase).next fun memory s2 f2 hpost => ?_
  obtain ⟨a, ha⟩ := hpost
  exact .fill ha fun _ => rfl

theorem lowerLoad_total (hst : byValueStorage i.ty "load" = .ok st)
    (hops : i.operands = [p]) (hp : Available J s w p) :
    Total J 5 s (lowerLoad i) (HasReg st.width) :=
  lowerLoad_total_of hst hops (addressRegister_total hp)

theorem lowerStore_total {v : Nat} (hops : i.operands = [x, p])
    (hty : J.env.module.valueTy x = .ok ty) (hst : byValueStorage ty "store" = .ok st)
    (hx : Available J s v x) (hp : Available J s w p) :
    Total J 7 s (lowerStore i) fun _ _ => True := by
  refine .check (binaryOperands_eq_ok.mpr hops)
    (.sourceModule (.check hty (.check hst ?_)))
  refine (valueOperand_total hx).get fun idx ox s1 f1 hox dx => ?_
  refine (aluSource_total hox dx).get fun src o s2 f2 ho hdir => ?_
  refine (addressRegister_total ((hp.later f1).later f2)).next fun base s3 f3 hbase => ?_
  refine (memoryAt_total st hbase).next fun memory s4 f4 hpost => ?_
  obtain ⟨a, ha⟩ := hpost
  refine emit_total (.cons ha (.cons ((ho.later f3).later f4) .nil)) ?_
  have hmem : (⟨.mem a, st⟩ : Operand).shape = .mem := rfl
  rcases hdir.shape with h | h <;>
    simp [Op.accepts, hmem, h, Machine.Shape.isPlace, Machine.Shape.isSource]

/-! ## Element addresses -/

theorem memoryOperand_total {index : Option (OperandId × UInt8)}
    (hbase : HasReg w address.base s)
    (hindex : ∀ x scale, index = some (x, scale) →
      HasReg 64 x s ∧ Address.isScale scale = true) :
    Total S 1 s (memoryOperand address index) fun m t =>
      ∃ a, t.Holds m ⟨.mem a, .ptr⟩ := by
  obtain ⟨r, hrun, hvirt⟩ := hbase.regOf
  refine .reading hrun ?_
  cases index with
  | none =>
    refine (mem_total .ptr fun q hq => ?_).mono (Nat.le_refl _) fun _ _ _ h => ⟨_, h⟩
    rcases List.mem_cons.mp hq with hq | hq
    · obtain ⟨st, ho⟩ := hvirt q hq.symm
      exact ⟨_, st, ho⟩
    · cases hq
  | some pair =>
    obtain ⟨x, scale⟩ := pair
    obtain ⟨hx, hscale⟩ := hindex x scale rfl
    obtain ⟨r', hrun', hvirt'⟩ := hx.regOf
    obtain ⟨ox, hox, hreg⟩ := hx
    have hwide : decide (ox.storage.bits = 64) = true :=
      decide_eq_true (UInt32.toNat_inj.mp hreg.width)
    refine .storage hox (.require hwide (.reading hrun' ?_))
    have hwith : ((Address.ofBase r).withDisp address.disp).withIndex r' scale =
        .ok { (Address.ofBase r).withDisp address.disp with
          index := some r', scale } := by
      rw [Address.withIndex, hscale]
      rfl
    refine .check hwith ((mem_total .ptr fun q hq => ?_).mono (Nat.le_refl _)
      fun _ _ _ h => ⟨_, h⟩)
    rcases List.mem_cons.mp hq with hq | hq
    · obtain ⟨st, ho⟩ := hvirt q hq.symm
      exact ⟨_, st, ho⟩
    · obtain ⟨st, ho⟩ := hvirt' q (List.mem_singleton.mp hq).symm
      exact ⟨_, st, ho⟩

theorem loadAddress_total {index : Option (OperandId × UInt8)}
    (hbase : HasReg w address.base s)
    (hindex : ∀ x scale, index = some (x, scale) →
      HasReg 64 x s ∧ Address.isScale scale = true) :
    Total S 2 s (loadAddress address index) (HasReg 64) := by
  refine .fresh fun dst d s1 f1 hd =>
    (memoryOperand_total (hbase.later f1) fun x scale h => ?_).next
    fun memory s2 f2 hpost => ?_
  · exact ⟨(hindex x scale h).1.later f1, (hindex x scale h).2⟩
  · obtain ⟨a, ha⟩ := hpost
    refine .emits (.cons (hd.later f2) (.cons ha .nil)) rfl fun s3 f3 => ?_
    exact .pure (hasReg_virt ((hd.later f2).later f3))

/-- A partial address whose base is in a register. -/
def Based (address : Partial) (t : State) : Prop := HasReg 64 address.base t

theorem flush_total (h : Based address s) : Total S 2 s (flush address) (HasReg 64) :=
  .ite (fun _ => .pure h) fun _ =>
    loadAddress_total h fun _ _ hindex => by cases hindex

theorem addWideOffset_total {base : OperandId} (h : HasReg 64 base s) :
    Total S 4 s (addWideOffset base offset) fun a t => Based a t ∧ a.disp = 0 := by
  have hval : (⟨.imm offset, .i64⟩ : Operand).IsValue 64 := ⟨rfl, .inr (.inl rfl)⟩
  refine (imm_total offset .i64).next fun k s1 f1 hk => ?_
  refine (copyToVReg_total hk hval).next fun amount s2 f2 hamount => ?_
  refine (loadAddress_total ((h.later f1).later f2) ?_).next fun dst s3 f3 hdst =>
    .pure ⟨hdst, rfl⟩
  rintro x scale hindex
  cases hindex
  exact ⟨hamount, rfl⟩

/--
The displacement behind a constant offset: the sum with the one before it, the offset, or
none.
-/
def FoldedTo (total offset : Int64) (disp : Int32) : Prop :=
  Word.toI32? total.toInt = some disp ∨ Word.toI32? offset.toInt = some disp ∨ disp = 0

theorem addI64_of_safe (disp : Int32) (h : IR.SafeOffset offset) :
    ∃ total, Word.addI64 disp.toInt64 offset = .ok total := by
  have hlow := Int32.le_toInt disp
  have hhigh := Int32.toInt_lt disp
  obtain ⟨hmin, hmax⟩ := h
  have hfits : Word.FitsI64 (disp.toInt64.toInt + offset.toInt) := by
    rw [Int32.toInt_toInt64]
    constructor <;> omega
  refine ⟨Int64.ofInt (disp.toInt64.toInt + offset.toInt), ?_⟩
  rw [Word.addI64, Word.toI64?, if_pos hfits]

theorem addOffset_total (h : Based address s)
    (htotal : Word.addI64 address.disp.toInt64 offset = .ok total) :
    Total S 6 s (addOffset address offset) fun a t => Based a t ∧
      FoldedTo total offset a.disp := by
  refine .checkWord htotal ?_
  cases hsum : Word.toI32? total.toInt with
  | some disp => exact .pure ⟨h, .inl hsum⟩
  | none =>
    refine (flush_total h).next fun base s1 f1 hbase => ?_
    cases hoffset : Word.toI32? offset.toInt with
    | some disp => exact .pure ⟨hbase, .inr (.inl hoffset)⟩
    | none =>
      refine (addWideOffset_total hbase).mono (Nat.le_refl _) fun a t _ hwide => ?_
      exact ⟨hwide.1, .inr (.inr hwide.2)⟩

theorem indexRegister_total (hav : Available J s w v) (hw : w ≤ 64) :
    Total J 4 s (indexRegister v) (HasReg 64) := by
  obtain ⟨ty, hty⟩ := hav.valueTy
  refine .reading (runs_isSigned.mpr ⟨ty, hty, rfl, rfl⟩) ?_
  refine (valueOperand_total hav).get fun id o s1 f1 ho hdir => ?_
  refine (intoRegister_total ho hdir.value).get fun id' o' s2 f2 ho' hreg => ?_
  refine .storage ho'
    (.ite (fun h64 => .pure ⟨o', ho', congrArg UInt32.toNat h64, hreg.form⟩)
      fun h64 => ?_)
  have hlt : o'.width < (⟨.virt ⟨0⟩, .i64⟩ : Operand).width := by
    have hne : o'.width ≠ 64 := fun h => h64 (UInt32.toNat_inj.mp h)
    have hle : o'.width ≤ 64 := hreg.width.symm ▸ hw
    exact Nat.lt_of_le_of_ne hle hne
  exact .fill ho' fun d =>
    accepts_extension (by cases ty.isSigned <;> simp) rfl
      (Operand.shape_of_isRegister hreg.form) hlt

theorem addProduct_total (h : Based address s) (hindex : HasReg 64 id s) :
    Total J 4 s (addProduct address id size) Based := by
  obtain ⟨ox, hox, hreg⟩ := hindex
  obtain ⟨ob, hob, hbase⟩ := h
  have hval : (⟨.imm size.toInt64, .i64⟩ : Operand).IsValue 64 := ⟨rfl, .inr (.inl rfl)⟩
  refine .fresh fun product p s1 f1 hp => ?_
  refine .emits (.cons hp (.cons (hox.later f1) .nil)) (hreg.direct.accepts_mov rfl)
    fun s2 f2 => ?_
  refine (imm_total size.toInt64 .i64).next fun k s3 f3 hk => ?_
  refine (copyToVReg_total hk hval).get fun factor ok s4 f4 hok hregk => ?_
  have hp4 := ((hp.later f2).later f3).later f4
  refine .emits (.cons hp4 (.cons hok .nil)) ?_ fun s5 f5 =>
    .fresh fun sum q s6 f6 hq => ?_
  · have hvirt : (⟨.virt p, .i64⟩ : Operand).shape = .reg := rfl
    simp [Op.accepts, hvirt, Operand.shape_of_isRegister hregk.form,
      Machine.Shape.isPlace]
  · have hob6 := ((((hob.later f1).later f2).later f3).later f4).later f5 |>.later f6
    refine .emits (.cons hq (.cons hob6 .nil)) (hbase.direct.accepts_mov rfl)
      fun s7 f7 => ?_
    refine .emits (.cons (hq.later f7) (.cons (((hp4.later f5).later f6).later f7) .nil))
      rfl fun s8 f8 => ?_
    exact .pure (Q := Based) (hasReg_virt ((hq.later f7).later f8))

theorem addScaledIndex_total (h : Based address s) (hav : Available J s w v)
    (hw : w ≤ 64) :
    Total J 8 s (addScaledIndex address v size) Based := by
  refine (indexRegister_total hav hw).next fun x s1 f1 hx => ?_
  cases hscale : scaleOf? size with
  | some scale =>
    refine (loadAddress_total (HasReg.later h f1) ?_).next fun dst s2 f2 hdst =>
      .pure hdst
    rintro x' scale' hindex
    cases hindex
    refine ⟨hx, ?_⟩
    unfold scaleOf? at hscale
    split at hscale
    · next hfits =>
      cases hscale
      exact hfits.2
    · cases hscale
  | none => exact addProduct_total (HasReg.later h f1) hx

/-- A value that can be an index. -/
def IsIndex (J : Job) (s : State) (v : ValueId) : Prop := ∃ w, w ≤ 64 ∧ Available J s w v

theorem elementOffset_of_product (h : k.toInt * size.toInt64.toInt = offset.toInt) :
    elementOffset gep k size = .ok offset := by
  have hfits : Word.FitsI64 (k.toInt * size.toInt64.toInt) := by
    rw [h]
    exact ⟨Int64.le_toInt offset, Int64.toInt_lt offset⟩
  rw [elementOffset, Word.toI64?, if_pos hfits, h, Int64.ofInt_toInt]

/-- The walk through one element type goes on with the address it leaves. -/
theorem stepElement_into {Q : Partial → State → Prop}
    (into : ty = .ptr element ∨ ∃ length, ty = .array element length)
    (h : Total S n s (stepElement gep address element index) Q) :
    Total S n s (stepInto gep address ty index) fun r t => Q r.1 t ∧ r.2 = element := by
  have hpair : Total S n s (do
      let address ← stepElement gep address element index
      pure (address, element)) fun r t => Q r.1 t ∧ r.2 = element :=
    Total.bind (n := n) (m := 0) h fun address t _ hleft => .pure ⟨hleft, rfl⟩
  rcases into with rfl | ⟨length, rfl⟩ <;> exact hpair

/-- A constant number of elements can be stepped over. -/
theorem stepConstant_total
    (into : ty = .ptr element ∨ ∃ length, ty = .array element length)
    (hbased : Based address s) (hsize : element.size = .ok size)
    (hk : S.env.module.constantInt index = .ok (some k))
    (hproduct : k.toInt * size.toInt64.toInt = offset.toInt)
    (htotal : Word.addI64 address.disp.toInt64 offset = .ok total) :
    Total S 6 s (stepInto gep address ty index) fun r t =>
      (Based r.1 t ∧ FoldedTo total offset r.1.disp) ∧ r.2 = element :=
  stepElement_into into (.checkWord hsize (.sourceModule (.check hk
    (.check (elementOffset_of_product hproduct) (addOffset_total hbased htotal)))))

/-- A member of a struct can be selected. -/
theorem stepMember_total {name : Option String} {fields : List IR.Ty} {packed : Bool}
    {field : IR.Ty} {layout : IR.StructLayout} (hbased : Based address s)
    (hk : S.env.module.constantInt index = .ok (some k)) (hnonneg : 0 ≤ k.toInt)
    (hfield : fields[k.toInt.toNat]? = some field)
    (hlayout : IR.Ty.structLayout packed fields = .ok layout)
    (htotal : Word.addI64 address.disp.toInt64
      (layout.offsets.getD k.toInt.toNat 0).toInt64 = .ok total) :
    Total S 6 s (stepInto gep address (.struct name fields packed) index) fun r t =>
      (Based r.1 t ∧
        FoldedTo total (layout.offsets.getD k.toInt.toNat 0).toInt64 r.1.disp) ∧
        r.2 = field := by
  refine .sourceModule (.check hk ?_)
  have hmember : memberIndex gep fields k = .ok (k.toInt.toNat, field) := by
    rw [memberIndex, if_pos hnonneg, hfield]
  refine .check hmember (.checkWord hlayout ?_)
  exact Total.bind (n := 6) (m := 0) (addOffset_total hbased htotal) fun a t _ hleft =>
    .pure ⟨hleft, rfl⟩

/--
A walk succeeds if its steps do: constant ones cost six operands, others as much as their
index.
-/
theorem walk_total {P : ValueId → Prop} (hn : 6 ≤ n) (hbased : Based address s)
    (hsteps : S.env.module.Steps P ty indices)
    (hindex : ∀ t address v size, Follows S.env s t → Based address t → P v →
      Total S n t (addScaledIndex address v size) Based) :
    Total S (n * indices.length) s (walk gep indices address ty) Based := by
  induction indices generalizing s address ty with
  | nil => exact .pure hbased
  | cons index rest ih =>
    have hone : ∃ next, S.env.module.Steps P next rest ∧
        Total S n s (stepInto gep address ty index) fun r t => Based r.1 t ∧
        r.2 = next := by
      cases hsteps with
      | @constant _ element _ _ k offset size into size_eq value product safe steps =>
        obtain ⟨total, htotal⟩ := addI64_of_safe address.disp safe
        refine ⟨element, steps, ?_⟩
        exact (stepConstant_total into hbased size_eq value product htotal).mono hn
          fun _ _ _ hleft => ⟨hleft.1.1, hleft.2⟩
      | @computed _ element _ _ size into size_eq value ok steps =>
        refine ⟨element, steps, stepElement_into into (.checkWord size_eq (.sourceModule
          (.check value ?_)))⟩
        exact hindex s address index size (.refl s) hbased ok
      | @member name fields packed field _ _ k layout value nonneg field_eq layout_eq
          safe steps =>
        obtain ⟨total, htotal⟩ := addI64_of_safe address.disp safe
        refine ⟨field, steps, ?_⟩
        exact (stepMember_total hbased value nonneg field_eq layout_eq htotal).mono hn
          fun _ _ _ hleft => ⟨hleft.1.1, hleft.2⟩
    obtain ⟨next, steps, hstep⟩ := hone
    rw [List.length_cons, Nat.mul_succ, Nat.add_comm]
    refine hstep.bind fun r t hf hr => ?_
    obtain ⟨address', ty'⟩ := r
    obtain ⟨hbased', rfl⟩ := hr
    exact ih hbased' steps fun u address v size hu =>
      hindex u address v size (hf.trans hu)

/--
An element address can be formed if the base can be brought into a register and the walk
succeeds.
-/
theorem lowerGep_total_of (hops : i.operands = base :: indices)
    (hty : S.env.module.valueTy base = .ok ty)
    (hbase : Total S n s (addressRegister base) (HasReg 64))
    (hwalk : ∀ t register, Follows S.env s t → HasReg 64 register t →
      Total S m t (walk i.value indices ⟨register, 0⟩ ty) Based) :
    Total S (n + (m + 2)) s (lowerGep i) (HasReg 64) := by
  unfold lowerGep
  rw [hops]
  refine hbase.bind fun register s1 f1 hreg => .sourceModule (.check hty ?_)
  refine (hwalk s1 register f1 hreg).bind fun address s2 f2 hbased => ?_
  exact loadAddress_total hbased fun _ _ hindex => by cases hindex

theorem lowerGep_total (hops : i.operands = base :: indices)
    (hbase : Available J s 64 base) (hty : J.env.module.valueTy base = .ok ty)
    (hsteps : J.env.module.Steps (IsIndex J s) ty indices) :
    Total J (5 + 8 * indices.length) s (lowerGep i) (HasReg 64) := by
  refine Total.weaken (n := 3 + (8 * indices.length + 2)) ?_ (by omega)
  refine lowerGep_total_of (S := J) hops hty (addressRegister_total hbase)
    fun t register f hreg => ?_
  refine walk_total (S := J) (by decide) hreg hsteps
    fun u address v size hu hbased ok => ?_
  obtain ⟨w, hw, hav⟩ := ok
  exact addScaledIndex_total hbased (hav.later (f.trans hu)) hw

/-! ## Calls -/

/-- An operand that can be called, and that binding arguments does not overwrite. -/
theorem callTarget_total (hav : Available J s w v) :
    Total J 2 s (callTarget v) fun id t => ∃ o, t.Holds id o ∧
      o.shape.isPlace = true := by
  refine (resolve_total hav).get fun id o s1 f1 ho hval => ?_
  have hcopy : Total J 1 s1 (copyToVReg id) fun id t => ∃ o, t.Holds id o ∧
      o.shape.isPlace = true :=
    (copyToVReg_total ho hval).mono (Nat.le_refl _) fun _ _ _ hpost =>
      hpost.imp fun _ h =>
      ⟨h.1, by rw [Operand.shape_of_isRegister h.2.form]; rfl⟩
  refine .operand ho ?_
  obtain ⟨form, st⟩ := o
  cases form with
  | symbol | virt | mem => exact .pure ⟨_, ho, rfl⟩
  | phys | imm | slot | label => exact hcopy

theorem callerArgIndex_runs (hc : Ready J s c) (hroom : s.size < 2 ^ 32)
    (id : OperandId) :
    ∃ r, Runs (callerArgIndex id) J.env s r s ∧ ∀ home, r = some home → home < 4 := by
  refine ⟨_, runs_bind.mpr ⟨_, s, runs_machine.mpr ⟨c, hc.current, rfl, rfl⟩,
    runs_pure.mpr ⟨rfl, rfl⟩⟩, fun home hhome => ?_⟩
  obtain ⟨hlt, -⟩ := List.findIdx?_eq_some_iff_getElem.mp hhome
  exact Nat.lt_of_lt_of_le hlt (hc.args hroom).1

theorem bindArgument_total {arg : ValueId} {reg : PhysReg} (hav : Available J s w arg) :
    Total J 3 s (bindArgument arg st reg) fun _ _ => True := by
  refine (resolve_total hav).get fun id o s1 f1 ho hval c hc hroom => ?_
  obtain ⟨r, hrun, hhome⟩ := callerArgIndex_runs hc (by omega) id
  suffices htotal : Total J 2 s1 _ fun _ _ => True from htotal c hc hroom
  refine .reading hrun ?_
  cases r with
  | some home =>
    refine (shadowSlot_total (hhome home rfl) st).next fun slot s2 f2 hpost => ?_
    obtain ⟨a, ha⟩ := hpost
    exact (physReg_total reg st).next fun dst s3 f3 hdst =>
      materialize_total hdst (ha.later f3) rfl
  | none =>
    refine .reading (runs_pure.mpr ⟨rfl, rfl⟩) ?_
    refine (physReg_total reg st).next fun dst s3 f3 hdst => ?_
    exact (materialize_total hdst (ho.later f3) (hval.accepts_copy rfl)).weaken
      (Nat.zero_le _)

theorem bindArguments_total {args : List ValueId}
    (hargs : ∀ arg ∈ args, ∃ w, Available J s w arg) :
    Total J (3 * args.length) s (bindArguments args sts regs) fun _ _ => True := by
  fun_induction bindArguments args sts regs generalizing s with
  | case1 arg args st sts reg regs ih =>
    obtain ⟨w, hav⟩ := hargs arg List.mem_cons_self
    refine (bindArgument_total hav).next fun _ t hf _ => ih fun a ha => ?_
    obtain ⟨w', hav'⟩ := hargs a (List.mem_cons_of_mem _ ha)
    exact ⟨w', hav'.later hf⟩
  | case2 => exact .pure trivial

/-- The result of a call is in a register, unless there is none. -/
def CallResult (st : Storage) (r : Option OperandId) (t : State) : Prop :=
  (st = .void ∧ r = none) ∨ ∃ id, r = some id ∧ HasReg st.width id t

theorem callResult_total (st : Storage) :
    Total J 2 s (callResult st) (CallResult st) := by
  refine .ite (fun hvoid => .pure (.inl ⟨hvoid, rfl⟩)) fun _ => .theAbi ?_
  refine (physReg_total _ st).next fun ret s1 f1 hret => .fresh fun dst d s2 f2 hd => ?_
  refine .emits (.cons hd (.cons (hret.later f2) .nil)) rfl fun s3 f3 => ?_
  exact .pure (.inr ⟨dst, rfl, hasReg_virt (hd.later f3)⟩)

theorem reserveCallStack_total (bytes : UInt32) :
    Total J 0 s (change fun f => pure (f.reserveCallStack bytes)) fun _ _ => True := by
  intro c hc _
  refine ⟨(), _, runs_change.mpr ⟨c, _, hc.current, rfl, rfl⟩,
    .grow (.reserve hc.current), ?_, trivial⟩
  rw [State.size_eq rfl, State.size_eq hc.current]
  exact Nat.le_refl _

theorem callStackSize_win64 {count : Nat} (h : count ≤ 4) :
    ∃ bytes, Abi.win64.callStackSize count = .ok bytes := by
  have hcases : count = 0 ∨ count = 1 ∨ count = 2 ∨ count = 3 ∨ count = 4 := by omega
  rcases hcases with rfl | rfl | rfl | rfl | rfl <;> exact ⟨_, rfl⟩

theorem lowerCall_total {callee : ValueId} {args : List ValueId}
    (hops : i.operands = callee :: args) (hlen : args.length ≤ 4)
    (hsts : argumentStorages J.env.module args = .ok sts)
    (hst : byValueStorage i.ty "call result" = .ok st)
    (hcallee : Available J s w callee) (hargs : ∀ arg ∈ args, ∃ w, Available J s w arg) :
    Total J 20 s (lowerCall i) (CallResult st) := by
  obtain ⟨bytes, hbytes⟩ := callStackSize_win64 hlen
  unfold lowerCall
  refine .theAbi ?_
  rw [hops]
  refine .ite (fun hmany => absurd hlen (Nat.not_le.mpr hmany)) fun _ => ?_
  refine .sourceModule (.check hsts (.check hst ?_))
  refine (callTarget_total hcallee).get fun target o s1 f1 ho hplace => ?_
  refine .checkWord hbytes ((reserveCallStack_total bytes).next fun _ s2 f2 _ => ?_)
  refine preserving_total (n := 14) (fun t f => ?_) fun r t u hr hf => ?_
  · have hbind : Total J 12 t (bindArguments args sts Abi.win64.argRegisters) fun _ _ =>
        True := by
      refine (bindArguments_total fun arg harg => ?_).weaken (by omega)
      obtain ⟨w', hav⟩ := hargs arg harg
      exact ⟨w', ((hav.later f1).later f2).later f⟩
    refine hbind.next fun _ s3 f3 _ => ?_
    refine .emits (.cons (((ho.later f2).later f).later f3) .nil) ?_ fun s4 f4 =>
      callResult_total st
    simpa [Op.accepts] using hplace
  · rcases hr with hvoid | ⟨id, rfl, hreg⟩
    · exact .inl hvoid
    · exact .inr ⟨id, rfl, hreg.later hf⟩

/-! ## Branches and returns -/

theorem resolve_target_total (h : J.env.module.OwnBlock J.func v) :
    Total J 2 s (resolve v) fun id t => ∃ o, t.Holds id o ∧ o.shape = .label := by
  obtain ⟨ty, b, data, hv, hb, hown⟩ := h
  exact resolve_label_total hv hb hown

theorem lowerBr_total {target : ValueId} (hops : i.operands = [target])
    (h : J.env.module.OwnBlock J.func target) :
    Total J 2 s (lowerBr i) fun _ _ => True := by
  refine .check (unaryOperand_eq_ok.mpr hops) ?_
  refine (resolve_target_total h).get fun id o s1 f1 ho hlabel => ?_
  exact emit_total (.cons ho .nil) (by simp [Op.accepts, hlabel])

theorem lowerCondBr_total {cond onTrue onFalse : ValueId}
    (hops : i.operands = [cond, onTrue, onFalse]) (hcond : Available J s w cond)
    (htrue : J.env.module.OwnBlock J.func onTrue)
    (hfalse : J.env.module.OwnBlock J.func onFalse) :
    Total J 7 s (lowerCondBr i) fun _ _ => True := by
  unfold lowerCondBr
  rw [hops]
  refine (valueOperand_total hcond).get fun id o s1 f1 ho hdir => ?_
  refine (intoRegister_total ho hdir.value).get fun id' o' s2 f2 ho' hreg => ?_
  refine (resolve_target_total htrue).get fun t ot s3 f3 hot ht => ?_
  refine (resolve_target_total hfalse).get fun e oe s4 f4 hoe he => ?_
  have ho4 := (ho'.later f3).later f4
  refine .emits (.cons ho4 (.cons ho4 .nil)) ?_ fun s5 f5 =>
    .emits (.cons (hoe.later f5) .nil) ?_ fun s6 f6 => ?_
  · simp [Op.accepts, Operand.shape_of_isRegister hreg.form, Machine.Shape.isPlace]
  · simp [Op.accepts, he]
  · exact emit_total (.cons (((hot.later f4).later f5).later f6) .nil)
      (by simp [Op.accepts, ht])

/-- What a return hands back: nothing, or a value where the function has one to return. -/
inductive Returns (J : Job) (s : State) : List ValueId → Prop
  | nothing : Returns J s []
  | value {v : ValueId} {w : Nat} (available : Available J s w v)
      (notVoid : storageOf J.f.sig.ret ≠ .ok .void) : Returns J s [v]

theorem lowerRet_total (h : Returns J s i.operands) :
    Total J 2 s (lowerRet i) fun _ _ => True := by
  intro c hc hroom
  obtain ⟨sts, hs⟩ := hc.session
  have htotal : Total J 2 s (lowerRet i) fun _ _ => True := by
    unfold lowerRet
    refine .reading (runs_machine.mpr ⟨c, hc.current, rfl, rfl⟩) ?_
    generalize i.operands = operands at h ⊢
    cases h with
    | nothing => exact (emit_total .nil rfl).weaken (Nat.zero_le _)
    | @value v w available notVoid =>
      have hvoid : decide (c.machine.ret ≠ .void) = true := by
        refine decide_eq_true fun hret => notVoid ?_
        rw [storageOf_of_scalarStorage hs.ret, hret]
      refine .require hvoid ((resolve_total available).get fun id o s1 f1 ho hval => ?_)
      refine .theAbi ((physReg_total _ _).next fun ret s2 f2 hret => ?_)
      refine (materialize_total hret (ho.later f2) (hval.accepts_copy rfl)).next
        fun _ s3 f3 _ => ?_
      exact emit_total .nil rfl
  exact htotal c hc hroom

end InstSelect.Lowering
