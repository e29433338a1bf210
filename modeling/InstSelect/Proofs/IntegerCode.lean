import InstSelect.Proofs.Preserving

/-!
# The code of integer instructions

For each integer instruction, the code that selection appends, as a relation between the
operands of its inputs, the operand of its result, the code, and the numbers of virtual
registers before and after. The relations say nothing about sessions: what the code
computes is proved about them alone.
-/

namespace InstSelect.Machine

/-- Code of a two-operand operation: `mov dst, lhs` then `op dst, rhs`. -/
inductive BinaryCode (op : Op) (st : Storage) (n : Nat) (l r : Operand) :
    Operand → List Code → Nat → Prop
  | mk {r' r'' : Operand} {c1 c2 : List Code} {d : VReg} {m : Nat}
      (right : Fetch n r r' c1 d.index.toNat) (direct : r'.needsAddress = false)
      (source : Fetch (d.index.toNat + 1) r' r'' c2 m) :
      BinaryCode op st n l r ⟨.virt d, st⟩
        (c1 ++ ⟨l.copyOp, [⟨.virt d, st⟩, l]⟩ :: (c2 ++ [⟨op, [⟨.virt d, st⟩, r'']⟩])) m

/--
Code of a shift: the count is an immediate or sits in `cl`, around which arguments are
saved.
-/
inductive ShiftCode (args : List Incoming) (op : Op) (st : Storage) (n : Nat)
    (l a : Operand) :
    Operand → List Code → Nat → Prop
  | immediate {a' : Operand} {k : Int64} {c : List Code} {d : VReg} {m : Nat}
      (dst : d.index.toNat = n) (amount : Fetch (n + 1) a a' c m)
      (count : a'.form = .imm k) :
      ShiftCode args op st n l a ⟨.virt d, st⟩
        (⟨l.copyOp, [⟨.virt d, st⟩, l]⟩ ::
          (c ++ [⟨op, [⟨.virt d, st⟩, ⟨.imm k, .i8⟩]⟩])) m
  | register {a' : Operand} {c : List Code} {d : VReg} {m : Nat}
      (dst : d.index.toNat = n) (amount : Fetch (n + 1) a a' c m)
      (direct : a'.needsAddress = false) (count : a'.imm? = none) :
      ShiftCode args op st n l a ⟨.virt d, st⟩
        (⟨l.copyOp, [⟨.virt d, st⟩, l]⟩ :: (c ++
          ((Lowering.savedIn [.rcx] args).map Incoming.save ++
            [⟨.mov, [⟨.phys .rcx, a'.storage⟩, a']⟩,
              ⟨op, [⟨.virt d, st⟩, ⟨.phys .rcx, .i8⟩]⟩] ++
            (Lowering.savedIn [.rcx] args).map Incoming.reload))) m

/--
The operands of a comparison in an order that `cmp` can take, with the condition to test.
-/
inductive Ordered (cond : Cond) (n : Nat) (l r : Operand) :
    Cond → Operand → Operand → List Code → Nat → Prop
  | swapped : Ordered cond n l r cond.swap r l [] n
  | kept {l' : Operand} {c : List Code} {m : Nat} (left : Fetch n l l' c m) :
      Ordered cond n l r cond l' r c m

/-- Code of a comparison: `cmp` then `setcc` into a byte register. -/
inductive CompareCode (cond : Cond) (n : Nat) (l r : Operand) :
    Operand → List Code → Nat → Prop
  | mk {l' r' x y y' y'' : Operand} {cond' : Cond} {c1 c2 c3 c4 c5 : List Code}
      {n1 n2 n3 n4 : Nat} {d : VReg} (left : Fetch n l l' c1 n1)
      (leftDirect : l'.needsAddress = false) (right : Fetch n1 r r' c2 n2)
      (rightDirect : r'.needsAddress = false)
      (order : Ordered cond n2 l' r' cond' x y c3 n3) (beside : Fetch n3 y y' c4 n4)
      (source : Fetch n4 y' y'' c5 d.index.toNat) :
      CompareCode cond n l r ⟨.virt d, .i8⟩
        (c1 ++ (c2 ++ (c3 ++ (c4 ++ (c5 ++
          [⟨.cmp, [x, y'']⟩, ⟨.setcc cond', [⟨.virt d, .i8⟩]⟩])))))
        (d.index.toNat + 1)

/--
Code of a truncation: a move at the narrow width, of a constant that was reduced to it.
-/
inductive TruncCode (st : Storage) (n : Nat) (x : Operand) :
    Operand → List Code → Nat → Prop
  | immediate {x' : Operand} {k : Int64} {c : List Code} {d : VReg}
      (source : Fetch n x x' c d.index.toNat) (constant : x'.form = .imm k)
      (narrows : st.width < x'.width) :
      TruncCode st n x ⟨.virt d, st⟩
        (c ++ [⟨.mov, [⟨.virt d, st⟩, ⟨.imm (Lowering.wrapTo k st), st⟩]⟩])
        (d.index.toNat + 1)
  | register {x' : Operand} {c : List Code} {d : VReg}
      (source : Fetch n x x' c d.index.toNat) (direct : x'.needsAddress = false)
      (narrows : st.width < x'.width) :
      TruncCode st n x ⟨.virt d, st⟩ (c ++ [⟨.mov, [⟨.virt d, st⟩, x']⟩])
      (d.index.toNat + 1)

/-- Code of an extension; a constant goes through a register. -/
inductive ExtendCode (op : Op) (st : Storage) (n : Nat) (x : Operand) :
    Operand → List Code → Nat → Prop
  | mk {x' x'' : Operand} {c1 c2 : List Code} {n1 : Nat} {d : VReg}
      (source : Fetch n x x' c1 n1) (direct : x'.needsAddress = false)
      (register : Fetch n1 x' x'' c2 d.index.toNat)
      (widens : x'.width < st.width) :
      ExtendCode op st n x ⟨.virt d, st⟩
        (c1 ++ (c2 ++ [⟨op, [⟨.virt d, st⟩, x'']⟩])) (d.index.toNat + 1)

/-- The operation that widens words of a type. -/
def wideningOp (signed : Bool) : Op := if signed then .movsx else .movzx

/-! ## The discipline of integer code -/

variable {op : Op} {st : Storage} {n m : Nat} {l r d x : Operand} {code : List Code}

theorem clobbersNothing_wideningOp (signed : Bool) :
    (wideningOp signed).clobbersNothing = true := by
  cases signed <;> rfl

theorem BinaryCode.quiet (hop : op.clobbersNothing = true)
    (h : BinaryCode op st n l r d code m) : ∀ c ∈ code, c.Quiet n := by
  obtain ⟨right, -, source⟩ := h
  have hle := right.le
  intro c hc
  simp only [List.mem_append, List.mem_cons, List.not_mem_nil, or_false] at hc
  rcases hc with hc | rfl | hc | rfl
  · exact right.quiet c hc
  · exact quiet_of_virt l.clobbersNothing_copyOp hle
  · exact (source.quiet c hc).mono (by omega)
  · exact quiet_of_virt hop hle

theorem CompareCode.quiet {cond : Cond} (h : CompareCode cond n l r d code m) :
    ∀ c ∈ code, c.Quiet n := by
  obtain ⟨left, -, right, -, order, beside, source⟩ := h
  have h1 := left.le
  have h2 := right.le
  have h4 := beside.le
  have h5 := source.le
  intro c hc
  simp only [List.mem_append, List.mem_cons, List.not_mem_nil, or_false] at hc
  cases order with
  | swapped =>
    rcases hc with hc | hc | hc | hc | hc | rfl | rfl
    · exact left.quiet c hc
    · exact (right.quiet c hc).mono h1
    · cases hc
    · exact (beside.quiet c hc).mono (by omega)
    · exact (source.quiet c hc).mono (by omega)
    · exact ⟨rfl, fun _ hdst => by cases hdst⟩
    · exact quiet_of_virt rfl (by omega)
  | kept first =>
    have h3 := first.le
    rcases hc with hc | hc | hc | hc | hc | rfl | rfl
    · exact left.quiet c hc
    · exact (right.quiet c hc).mono h1
    · exact (first.quiet c hc).mono (by omega)
    · exact (beside.quiet c hc).mono (by omega)
    · exact (source.quiet c hc).mono (by omega)
    · exact ⟨rfl, fun _ hdst => by cases hdst⟩
    · exact quiet_of_virt rfl (by omega)

theorem TruncCode.quiet (h : TruncCode st n x d code m) : ∀ c ∈ code, c.Quiet n := by
  cases h with
  | immediate source | register source =>
    intro c hc
    rcases List.mem_append.mp hc with hc | hc
    · exact source.quiet c hc
    · obtain rfl := List.mem_singleton.mp hc
      exact quiet_of_virt rfl source.le

theorem ExtendCode.quiet (hop : op.clobbersNothing = true)
    (h : ExtendCode op st n x d code m) : ∀ c ∈ code, c.Quiet n := by
  obtain ⟨source, -, register⟩ := h
  have h1 := source.le
  have h2 := register.le
  intro c hc
  simp only [List.mem_append, List.mem_singleton] at hc
  rcases hc with hc | hc | rfl
  · exact source.quiet c hc
  · exact (register.quiet c hc).mono h1
  · exact quiet_of_virt hop (by omega)

/-- Around a shift by `cl` the argument in `rcx` is saved. -/
theorem ShiftCode.tame {divides : Bool} {args : List Incoming} {a : Operand}
    (hop : op.clobbersNothing = true) (hstays : op.isTerminator = false)
    (h : ShiftCode args op st n l a d code m) : Tame divides args n code := by
  have hclobbers : ∀ r, ¬ op.Clobbers .win64 r := by
    intro r
    cases op <;> simp_all [Op.clobbersNothing, Op.Clobbers]
  cases h with
  | immediate dst amount count =>
    refine .quiet fun c hc => ?_
    simp only [List.mem_append, List.mem_cons, List.not_mem_nil, or_false] at hc
    rcases hc with rfl | hc | rfl
    · exact quiet_of_virt l.clobbersNothing_copyOp (Nat.le_of_eq dst.symm)
    · exact (amount.quiet c hc).mono (Nat.le_succ n)
    · exact quiet_of_virt hop (Nat.le_of_eq dst.symm)
  | @register a' c v m dst amount direct count =>
    rw [← List.cons_append]
    refine .append (.quiet fun c hc => ?_)
      (.preserving [.rcx] (by decide) (fun hrax => by simp at hrax) ?_ ?_)
    · rcases List.mem_cons.mp hc with rfl | hc
      · exact quiet_of_virt l.clobbersNothing_copyOp (Nat.le_of_eq dst.symm)
      · exact (amount.quiet c hc).mono (Nat.le_succ n)
    · intro c hc
      simp only [List.mem_cons, List.not_mem_nil, or_false] at hc
      rcases hc with rfl | rfl
      · refine ⟨rfl, fun _ _ hcl => hcl.elim, fun hdiv => (by cases hdiv),
          fun dst hdst => ?_⟩
        cases hdst
        exact .head _
      · refine ⟨hstays, fun r _ hcl => absurd hcl (hclobbers r), fun hdiv => ?_,
          fun dst hdst => ?_⟩
        · cases op <;> simp_all [Op.clobbersNothing, Op.divides]
        · unfold Code.dst? at hdst
          split at hdst
          · cases hdst
            trivial
          · cases hdst
    · intro c hc
      simp only [List.mem_cons, List.not_mem_nil, or_false] at hc
      rcases hc with rfl | rfl
      · rintro dst hdst r hform
        cases hdst
        cases hform
      · intro dst' hdst r hform
        unfold Code.dst? at hdst
        split at hdst
        · cases hdst
          cases hform
          exact Nat.le_of_eq dst.symm
        · cases hdst

end InstSelect.Machine

namespace InstSelect.Lowering

open IR (ValueId Inst Predicate)
open Machine (Storage Operand OperandId Op Cond Shape Arena Incoming Fetch BinaryCode
  ShiftCode Ordered CompareCode TruncCode ExtendCode)

variable {env : Env} {s s' : State} {i : Inst} {op : Op} {id lhs rhs : OperandId}

theorem binaryOperands_eq_ok {l r : ValueId} : binaryOperands i = .ok (l, r) ↔
    i.operands = [l, r] := by
  unfold binaryOperands
  split
  · next h => simp [h]
  · next h =>
    constructor
    · intro hv
      exact absurd hv violate_ne_ok
    · intro heq
      exact absurd heq (h l r)

theorem unaryOperand_eq_ok {x : ValueId} : unaryOperand i = .ok x ↔ i.operands = [x] := by
  unfold unaryOperand
  split
  · next h => simp [h]
  · next h =>
    constructor
    · intro hv
      exact absurd hv violate_ne_ok
    · intro heq
      exact absurd heq (h x)

/-! ## Binary operations -/

/-- A source that the operation can encode. -/
theorem binarySource_fetch {src : OperandId}
    (h : Runs (binarySource op src) env s id s') :
    ∃ code, Path env s s' code ∧ ∀ A : Arena, s'.Within A →
      Fetches A src id s.vregs code s'.vregs fun o o' =>
        (op = .imul → o'.shape.isPlace = true) ∧ (o'.isImm = true → o'.isImm32 = true) ∧
          (o' = o ∨ o'.isRegister = true) := by
  unfold binarySource at h
  split at h
  · next hop =>
    simp only [runs_bind] at h
    obtain ⟨o, _, ho, h⟩ := h
    obtain ⟨c, hc, hget, rfl⟩ := runs_operand.mp ho
    obtain ⟨code, hpath, hf⟩ := keepOrCopy_fetch ho h
    refine ⟨code, hpath, fun A hA => (hf A hA).imp ?_⟩
    rintro p p' ⟨rfl, hp'⟩
    split at hp'
    · next hkeep =>
      subst hp'
      have hplace : p'.shape.isPlace = true ∧ p'.isImm = false := by
        obtain ⟨form, st⟩ := p'
        cases form <;> simp_all [Operand.isRegister, Operand.isMemory, Operand.shape,
          Shape.isPlace, Operand.isImm]
      exact ⟨fun _ => hplace.1, fun himm => by simp [hplace.2] at himm, Or.inl rfl⟩
    · obtain ⟨r, rfl⟩ := hp'
      exact ⟨fun _ => rfl, fun himm => (by cases himm), Or.inr rfl⟩
  · next hop =>
    obtain ⟨code, hpath, hf⟩ := aluSource_fetch h
    exact ⟨code, hpath, fun A hA => (hf A hA).imp fun o o' ho =>
      ⟨fun himul => absurd himul hop, ho⟩⟩

theorem lowerBinary_code (h : Runs (lowerBinary op i) env s id s') :
    ∃ st l r idl idr code, scalarStorage i.ty "arithmetic" = .ok st ∧
      i.operands = [l, r] ∧
      Path env s s' code ∧ s'.values.find? l = some idl ∧ s'.values.find? r = some idr ∧
      ∀ A : Arena, s'.Within A → ∃ ol or d, A.get? idl = some ol ∧ A.get? idr = some or ∧
        A.get? id = some d ∧ BinaryCode op st s.vregs ol or d code s'.vregs := by
  simp only [lowerBinary, runs_bind, runs_check, runs_pure] at h
  obtain ⟨st, _, ⟨hst, rfl⟩, ⟨l, r⟩, _, ⟨hops, rfl⟩, idl, s1, hl, idr', s2, hr, dst,
    s3, hdst, _, s4, hcopy, src, s5, hsrc, _, s6, hop, rfl, rfl⟩ := h
  obtain ⟨p1, n1, hbl⟩ := resolve_path hl
  obtain ⟨idr, c2, p2, hbr, f2⟩ := valueOperand_fetch hr
  obtain ⟨d, hd, n3, p3, f3⟩ := newVReg_adds hdst
  obtain ⟨c4, p4, n4, f4⟩ := materialize_path hcopy
  obtain ⟨c5, p5, f5⟩ := binarySource_fetch hsrc
  obtain ⟨os, p6, n6, -, f6⟩ := emit_path hop
  have p34 := p3.after p4
  have p56 := p5.trans p6
  have htail := p34.trans p56
  refine ⟨st, l, r, idl, idr, _, hst, binaryOperands_eq_ok.mp hops,
    p1.after (p2.trans htail), htail.values (p2.values hbl), htail.values hbr,
    fun A hA => ?_⟩
  have w5 := p6.within hA
  have w4 := p5.within w5
  have w3 := p4.within w4
  obtain ⟨or, or', hor, hor', hfetch, hdirect⟩ := f2 A (p3.within w3)
  obtain ⟨e, ol, he, hol, rfl⟩ := f4 A w4
  obtain ⟨x, y, hx, hy, hfetch', -⟩ := f5 A w5
  obtain ⟨e', y', he', hy', rfl⟩ := mapM_pair.mp (f6 A hA)
  cases (f3 A w3).symm.trans he
  cases he.symm.trans he'
  cases hor'.symm.trans hx
  cases hy.symm.trans hy'
  refine ⟨ol, or, _, hol, hor, he, ?_⟩
  rw [n1, ← hd] at hfetch
  rw [n4, n3, ← hd, ← n6] at hfetch'
  exact .mk hfetch hdirect hfetch'

/-! ## Shifts -/

/-- Shifting by `cl`, with the arguments in `rcx` saved around it. -/
theorem shiftByRegister_code {dst amount : OperandId} {u : Unit} (habi : env.abi = .win64)
    (h : Runs (shiftByRegister op dst amount) env s u s') :
    ∃ code, Path env s s' code ∧ s'.vregs = s.vregs ∧
      ∀ (A : Arena) (args : List Incoming), s'.Within A → Arguments A s args →
        ∃ d a, A.get? dst = some d ∧ A.get? amount = some a ∧
          code = (savedIn [.rcx] args).map Incoming.save ++
            [⟨.mov, [⟨.phys .rcx, a.storage⟩, a]⟩, ⟨op, [d, ⟨.phys .rcx, .i8⟩]⟩] ++
            (savedIn [.rcx] args).map Incoming.reload := by
  simp only [shiftByRegister, runs_bind, runs_storage] at h
  obtain ⟨_, _, ⟨a, ha, rfl⟩, h⟩ := h
  obtain ⟨c, hc, _, rfl⟩ := runs_operand.mp ha
  -- The body: the count into `rcx`, then the shift.
  have hbody : ∀ t v, Runs (do
        let rcx ← physReg .rcx a.storage
        emit .mov [rcx, amount]
        let cl ← physReg .rcx .i8
        emit op [dst, cl]) env t u v →
      ∃ os os', Path env t v [⟨.mov, os⟩, ⟨op, os'⟩] ∧ v.vregs = t.vregs ∧
        ∀ A : Arena, v.Within A → ∃ x d, A.get? amount = some x ∧ A.get? dst = some d ∧
          os = [⟨.phys .rcx, a.storage⟩, x] ∧ os' = [d, ⟨.phys .rcx, .i8⟩] := by
    intro t v hrun
    simp only [runs_bind] at hrun
    obtain ⟨rcx, t1, h1, _, t2, h2, cl, t3, h3, h4⟩ := hrun
    obtain ⟨os, p2, n2, -, f2⟩ := emit_path h2
    obtain ⟨os', p4, n4, -, f4⟩ := emit_path h4
    have a1 := physReg_adds h1
    have a3 := physReg_adds h3
    refine ⟨os, os', (a1.path.after p2).trans (a3.path.after p4), ?_, fun A hA => ?_⟩
    · rw [n4, a3.vregs, n2, a1.vregs]
    · have w3 := p4.within hA
      have w2 := a3.path.within w3
      obtain ⟨x, y, hx, hy, rfl⟩ := mapM_pair.mp (f2 A w2)
      obtain ⟨d, z, hd, hz, rfl⟩ := mapM_pair.mp (f4 A hA)
      cases (a1.get A (p2.within w2)).symm.trans hx
      cases (a3.get A w3).symm.trans hz
      exact ⟨y, d, hy, hd, rfl, rfl⟩
  obtain ⟨t, v, pre, post, hpre, hrun, hpost, nt, nv, hcode⟩ :=
    preserving_path habi h fun t v _ hrun => by
      obtain ⟨os, os', hpath, -⟩ := hbody t v hrun
      exact ⟨_, hpath⟩
  obtain ⟨os, os', hpath, nbody, hos⟩ := hbody t v hrun
  refine ⟨_, (hpre.trans hpath).trans hpost,
    by rw [nv, nbody, nt], fun A args hA hargs => ?_⟩
  have wv := hpost.within hA
  obtain ⟨rfl, rfl⟩ := hcode A args hA hargs
  obtain ⟨x, d, hx, hd, rfl, rfl⟩ := hos A wv
  cases (operand_get ha (hpre.within (hpath.within wv))).symm.trans hx
  exact ⟨d, a, hd, hx, rfl⟩

theorem runs_isSigned {v : ValueId} {b : Bool} :
    Runs (isSigned v) env s b s' ↔
      ∃ ty, env.module.valueTy v = .ok ty ∧ ty.isSigned = b ∧ s = s' := by
  simp only [isSigned, runs_bind, runs_sourceModule, runs_check, runs_pure]
  constructor
  · rintro ⟨_, _, ⟨rfl, rfl⟩, ty, _, ⟨hty, rfl⟩, rfl, rfl⟩
    exact ⟨ty, hty, rfl, rfl⟩
  · rintro ⟨ty, hty, rfl, rfl⟩
    exact ⟨_, s, ⟨rfl, rfl⟩, ty, s, ⟨hty, rfl⟩, rfl, rfl⟩

theorem imm?_eq_some {o : Operand} {k : Int64} : o.imm? = some k ↔ o.form = .imm k := by
  obtain ⟨form, st⟩ := o
  cases form <;> simp [Operand.imm?]

theorem lowerShift_code {right : Bool} (habi : env.abi = .win64)
    (h : Runs (lowerShift right i) env s id s') :
    ∃ st l a ty idl ida code, scalarStorage i.ty "shift" = .ok st ∧ i.operands = [l, a] ∧
      env.module.valueTy l = .ok ty ∧ Path env s s' code ∧ s'.values.find? l = some idl ∧
      s'.values.find? a = some ida ∧
      ∀ (A : Arena) (args : List Incoming), s'.Within A → Arguments A s args →
        ∃ ol oa d, A.get? idl = some ol ∧ A.get? ida = some oa ∧ A.get? id = some d ∧
          ShiftCode args (shiftOp right ty.isSigned) st s.vregs ol oa d code
            s'.vregs := by
  simp only [lowerShift, runs_bind, runs_check, runs_isSigned] at h
  obtain ⟨st, _, ⟨hst, rfl⟩, ⟨l, a⟩, _, ⟨hops, rfl⟩, _, _, ⟨ty, hty, rfl, rfl⟩, idl, s1,
    hl, dst, s2, hdst, _, s3, hcopy, amount, s4, hamount, oa', _, hoa, h⟩ := h
  obtain ⟨c, hc, _, rfl⟩ := runs_operand.mp hoa
  obtain ⟨p1, n1, hbl⟩ := resolve_path hl
  obtain ⟨d, hd, n2, p2, f2⟩ := newVReg_adds hdst
  obtain ⟨c3, p3, n3, f3⟩ := materialize_path hcopy
  obtain ⟨ida, c4, p4, hba, f4⟩ := valueOperand_fetch hamount
  have hhead := (p1.after p2).after p3
  have hbl3 := p3.values (p2.values hbl)
  -- Both ways of shifting share everything up to the count.
  have hshared : ∀ A : Arena, s4.Within A → ∃ ol oa a', A.get? idl = some ol ∧
      A.get? ida = some oa ∧ A.get? amount = some a' ∧ A.get? dst = some ⟨.virt d, st⟩ ∧
      c3 = [⟨ol.copyOp, [⟨.virt d, st⟩, ol]⟩] ∧ Fetch (s.vregs + 1) oa a' c4 s4.vregs ∧
      a'.needsAddress = false := by
    intro A w4
    have w3 := p4.within w4
    obtain ⟨e, ol, he, hol, rfl⟩ := f3 A w3
    cases (f2 A (p3.within w3)).symm.trans he
    obtain ⟨oa, a', hoa, ha', hfetch, hdirect⟩ := f4 A w4
    rw [n3, n2, n1] at hfetch
    exact ⟨ol, oa, a', hol, hoa, ha', he, rfl, hfetch, hdirect⟩
  cases himm : oa'.imm? with
  | some k =>
    simp only [himm, runs_bind, runs_pure] at h
    obtain ⟨count, s5, hcount, _, _, hop, rfl, rfl⟩ := h
    obtain ⟨os, p6, n6, -, f6⟩ := emit_path hop
    have a5 := imm_adds hcount
    have htail := a5.path.after p6
    refine ⟨st, l, a, ty, idl, ida, _, hst, binaryOperands_eq_ok.mp hops, hty,
      hhead.trans (p4.trans htail), htail.values (p4.values hbl3), htail.values hba,
      fun A args hA _ => ?_⟩
    have w5 := p6.within hA
    have w4 := a5.path.within w5
    obtain ⟨ol, oa, a', hol, hoa', ha', hdst', rfl, hfetch, -⟩ := hshared A w4
    cases (operand_get hoa w4).symm.trans ha'
    obtain ⟨e, k', he, hk', rfl⟩ := mapM_pair.mp (f6 A hA)
    cases hdst'.symm.trans he
    cases (a5.get A w5).symm.trans hk'
    refine ⟨ol, oa, _, hol, hoa', he, ?_⟩
    rw [n6, a5.vregs]
    exact .immediate (hd.trans n1) hfetch (imm?_eq_some.mp himm)
  | none =>
    simp only [himm, runs_bind, runs_pure] at h
    obtain ⟨_, _, hshift, rfl, rfl⟩ := h
    obtain ⟨code, p5, n5, f5⟩ := shiftByRegister_code habi hshift
    refine ⟨st, l, a, ty, idl, ida, _, hst, binaryOperands_eq_ok.mp hops, hty,
      hhead.trans (p4.trans p5), p5.values (p4.values hbl3), p5.values hba,
      fun A args hA hargs => ?_⟩
    have w4 := p5.within hA
    obtain ⟨ol, oa, a', hol, hoa', ha', hdst', rfl, hfetch, hdirect⟩ := hshared A w4
    cases (operand_get hoa w4).symm.trans ha'
    obtain ⟨e, a'', he, ha'', rfl⟩ := f5 A args hA ((hargs.path hhead).path p4)
    cases hdst'.symm.trans he
    cases ha'.symm.trans ha''
    refine ⟨ol, oa, _, hol, hoa', he, ?_⟩
    rw [n5]
    exact .register (hd.trans n1) hfetch hdirect himm

/-! ## Comparisons -/

theorem orderOperands_code {cond cond' : Cond} {x y : OperandId}
    (h : Runs (orderOperands cond lhs rhs) env s (cond', x, y) s') :
    ∃ code, Path env s s' code ∧ ∀ A : Arena, s'.Within A →
      ∃ l r ox oy, A.get? lhs = some l ∧
      A.get? rhs = some r ∧ A.get? x = some ox ∧ A.get? y = some oy ∧
      Ordered cond s.vregs l r cond' ox oy code s'.vregs ∧ ox.isImm = false := by
  simp only [orderOperands, runs_bind] at h
  obtain ⟨l, _, hl, r, _, hr, h⟩ := h
  obtain ⟨c, hc, _, rfl⟩ := runs_operand.mp hl
  obtain ⟨c', hc', _, rfl⟩ := runs_operand.mp hr
  cases hlimm : l.isImm with
  | false =>
    simp only [hlimm, runs_pure] at h
    obtain ⟨heq, rfl⟩ := h
    cases heq
    exact ⟨[], .refl s, fun A hA => ⟨l, r, l, r, operand_get hl hA, operand_get hr hA,
      operand_get hl hA, operand_get hr hA, .kept .keep, hlimm⟩⟩
  | true =>
    cases hrimm : r.isImm with
    | false =>
      simp only [hlimm, hrimm, runs_pure] at h
      obtain ⟨heq, rfl⟩ := h
      cases heq
      exact ⟨[], .refl s, fun A hA => ⟨l, r, r, l, operand_get hl hA, operand_get hr hA,
        operand_get hr hA, operand_get hl hA, .swapped, hrimm⟩⟩
    | true =>
      simp only [hlimm, hrimm, runs_bind, runs_pure] at h
      obtain ⟨x', _, hcopy, heq, rfl⟩ := h
      cases heq
      obtain ⟨code, hpath, hf⟩ := copyToVReg_fetch hcopy
      refine ⟨code, hpath, fun A hA => ?_⟩
      obtain ⟨o, o', ho, ho', hfetch, d, rfl⟩ := hf A hA
      have w := hpath.within hA
      cases (operand_get hl w).symm.trans ho
      exact ⟨l, r, _, r, ho, operand_get hr w, ho', operand_get hr w, .kept hfetch, rfl⟩

theorem compareSource_fetch (h : Runs (compareSource lhs rhs) env s id s') :
    ∃ code, Path env s s' code ∧ ∀ A : Arena, s'.Within A →
      Fetches A rhs id s.vregs code s'.vregs fun o o' =>
        (∀ l, A.get? lhs = some l → l.isMemory = true → o'.isMemory = false) ∧
          (o' = o ∨ o'.isRegister = true) := by
  simp only [compareSource, runs_bind] at h
  obtain ⟨l, _, hl, r, _, hr, h⟩ := h
  obtain ⟨c, hc, _, rfl⟩ := runs_operand.mp hl
  obtain ⟨c', hc', _, rfl⟩ := runs_operand.mp hr
  have h' : Runs (if !(l.isMemory && r.isMemory) then pure rhs else copyToVReg rhs) env s
      id s' := by
    cases hmem : l.isMemory && r.isMemory <;> simpa [hmem] using h
  obtain ⟨code, hpath, hf⟩ := keepOrCopy_fetch hr h'
  refine ⟨code, hpath, fun A hA => (hf A hA).imp ?_⟩
  rintro p p' ⟨rfl, hp'⟩
  split at hp'
  · next hkeep =>
    subst hp'
    refine ⟨fun l' hl' hmem => ?_, Or.inl rfl⟩
    cases (operand_get hl (hpath.within hA)).symm.trans hl'
    simpa [hmem] using hkeep
  · obtain ⟨d, rfl⟩ := hp'
    exact ⟨fun _ _ _ => rfl, Or.inr rfl⟩

theorem lowerCompare_code {predicate : Predicate}
    (h : Runs (lowerCompare predicate i) env s id s') :
    ∃ l r ty st idl idr code, i.operands = [l, r] ∧ env.module.valueTy l = .ok ty ∧
      scalarStorage ty "comparison" = .ok st ∧ Path env s s' code ∧
      s'.values.find? l = some idl ∧ s'.values.find? r = some idr ∧
      ∀ A : Arena, s'.Within A → ∃ ol or d, A.get? idl = some ol ∧ A.get? idr = some or ∧
        A.get? id = some d ∧
        CompareCode (conditionCode predicate ty.isSigned) s.vregs ol or d code
          s'.vregs := by
  simp only [lowerCompare, runs_bind, runs_check, runs_sourceModule, runs_pure] at h
  obtain ⟨⟨l, r⟩, _, ⟨hops, rfl⟩, _, _, ⟨rfl, rfl⟩, ty, _, ⟨hty, rfl⟩, st, _, ⟨hst, rfl⟩,
    idl', s1, hl, idr', s2, hr, ⟨cond, x, y⟩, s3, horder, y', s4, hbeside, y'', s5,
    hsource, _, s6, hcmp, dst, s7, hdst, _, s8, hset, rfl, rfl⟩ := h
  obtain ⟨idl, c1, p1, hbl, f1⟩ := valueOperand_fetch hl
  obtain ⟨idr, c2, p2, hbr, f2⟩ := valueOperand_fetch hr
  obtain ⟨c3, p3, f3⟩ := orderOperands_code horder
  obtain ⟨c4, p4, f4⟩ := compareSource_fetch hbeside
  obtain ⟨c5, p5, f5⟩ := aluSource_fetch hsource
  obtain ⟨os, p6, n6, -, f6⟩ := emit_path hcmp
  obtain ⟨d, hd, n7, p7, f7⟩ := newVReg_adds hdst
  obtain ⟨os', p8, n8, -, f8⟩ := emit_path hset
  have htail := p3.trans (p4.trans (p5.trans (p6.trans (p7.after p8))))
  refine ⟨l, r, ty, st, idl, idr, _, binaryOperands_eq_ok.mp hops, hty, hst,
    p1.trans (p2.trans htail), htail.values (p2.values hbl), htail.values hbr,
    fun A hA => ?_⟩
  have w7 := p8.within hA
  have w6 := p7.within w7
  have w5 := p6.within w6
  have w4 := p5.within w5
  have w3 := p4.within w4
  have w2 := p3.within w3
  obtain ⟨ol, ol', hol, hol', g1, d1⟩ := f1 A (p2.within w2)
  obtain ⟨or, or', hor, hor', g2, d2⟩ := f2 A w2
  obtain ⟨a, b, ox, oy, ha, hb, hox, hoy, g3, -⟩ := f3 A w3
  obtain ⟨e1, e2, he1, he2, g4, -⟩ := f4 A w4
  obtain ⟨e3, e4, he3, he4, g5, -⟩ := f5 A w5
  obtain ⟨q1, q2, hq1, hq2, rfl⟩ := mapM_pair.mp (f6 A w6)
  obtain ⟨q3, hq3, rfl⟩ := mapM_single.mp (f8 A hA)
  cases hol'.symm.trans ha
  cases hor'.symm.trans hb
  cases hoy.symm.trans he1
  cases he2.symm.trans he3
  cases hox.symm.trans hq1
  cases he4.symm.trans hq2
  cases (f7 A w7).symm.trans hq3
  refine ⟨ol, or, _, hol, hor, hq3, ?_⟩
  have hd' : d.index.toNat = s5.vregs := by rw [hd, n6]
  rw [n8, n7, ← hd]
  rw [← hd'] at g5
  exact .mk g1 d1 g2 d2 g3 g4 g5

/-! ## Conversions -/

theorem lowerTrunc_code (h : Runs (lowerTrunc i) env s id s') :
    ∃ st x idx code, scalarStorage i.ty "truncation" = .ok st ∧ i.operands = [x] ∧
      Path env s s' code ∧ s'.values.find? x = some idx ∧
      ∀ A : Arena, s'.Within A → ∃ ox d, A.get? idx = some ox ∧ A.get? id = some d ∧
        TruncCode st s.vregs ox d code s'.vregs := by
  simp only [lowerTrunc, runs_bind, runs_check, require_eq_ok, decide_eq_true_eq] at h
  obtain ⟨st, _, ⟨hst, rfl⟩, x, _, ⟨hops, rfl⟩, src, s1, hsrc, o, _, ho, _, _,
    ⟨hlt, rfl⟩, h⟩ := h
  obtain ⟨c, hc, _, rfl⟩ := runs_operand.mp ho
  obtain ⟨idx, c1, p1, hbx, f1⟩ := valueOperand_fetch hsrc
  have hnarrow : st.width < o.width := by
    simpa [Storage.width, Operand.width, UInt32.lt_iff_toNat_lt] using hlt
  cases himm : o.imm? with
  | some k =>
    simp only [himm, runs_bind, runs_pure] at h
    obtain ⟨im, s2, him, dst, s3, hdst, _, s4, hmov, rfl, rfl⟩ := h
    have a2 := imm_adds him
    obtain ⟨d, c3, hd, n3, p3, f3⟩ := fill_path hdst hmov
    have htail := a2.path.after p3
    refine ⟨st, x, idx, _, hst, unaryOperand_eq_ok.mp hops, p1.trans htail,
      htail.values hbx, fun A hA => ?_⟩
    have w2 := p3.within hA
    have w1 := a2.path.within w2
    obtain ⟨ox, ox', hox, hox', hfetch, -⟩ := f1 A w1
    cases (operand_get ho w1).symm.trans hox'
    obtain ⟨e, he, hget, rfl⟩ := f3 A hA
    cases (a2.get A w2).symm.trans he
    rw [← a2.vregs, ← hd] at hfetch
    refine ⟨ox, _, hox, hget, ?_⟩
    rw [n3, ← hd]
    exact .immediate hfetch (imm?_eq_some.mp himm) hnarrow
  | none =>
    simp only [himm, runs_bind, runs_pure] at h
    obtain ⟨_, _, ⟨rfl, rfl⟩, dst, s3, hdst, _, s4, hmov, rfl, rfl⟩ := h
    obtain ⟨d, c3, hd, n3, p3, f3⟩ := fill_path hdst hmov
    refine ⟨st, x, idx, _, hst, unaryOperand_eq_ok.mp hops, p1.trans p3, p3.values hbx,
      fun A hA => ?_⟩
    have w1 := p3.within hA
    obtain ⟨ox, ox', hox, hox', hfetch, hdirect⟩ := f1 A w1
    cases (operand_get ho w1).symm.trans hox'
    obtain ⟨e, he, hget, rfl⟩ := f3 A hA
    cases hox'.symm.trans he
    rw [← hd] at hfetch
    refine ⟨ox, _, hox, hget, ?_⟩
    rw [n3, ← hd]
    exact .register hfetch hdirect hnarrow

theorem lowerExtend_code (h : Runs (lowerExtend op i) env s id s') :
    ∃ st x idx code, scalarStorage i.ty "extension" = .ok st ∧ i.operands = [x] ∧
      Path env s s' code ∧ s'.values.find? x = some idx ∧
      ∀ A : Arena, s'.Within A → ∃ ox d, A.get? idx = some ox ∧ A.get? id = some d ∧
        ExtendCode op st s.vregs ox d code s'.vregs := by
  simp only [lowerExtend, runs_bind, runs_check, require_eq_ok, decide_eq_true_eq,
    runs_ite_bind, runs_pure] at h
  obtain ⟨st, _, ⟨hst, rfl⟩, x, _, ⟨hops, rfl⟩, src, s1, hsrc, o, _, ho, _, _, ⟨hlt, rfl⟩,
    src', s2, hreg, dst, s3, hdst, _, s4, hop, rfl, rfl⟩ := h
  obtain ⟨c, hc, _, rfl⟩ := runs_operand.mp ho
  obtain ⟨idx, c1, p1, hbx, f1⟩ := valueOperand_fetch hsrc
  have hreg' : Runs (if !o.isImm then pure src else copyToVReg src) env s1 src' s2 := by
    cases himm : o.isImm <;> simpa [himm] using hreg
  obtain ⟨c2, p2, f2⟩ := keepOrCopy_fetch ho hreg'
  obtain ⟨d, c3, hd, n3, p3, f3⟩ := fill_path hdst hop
  have hwiden : o.width < st.width := by
    simpa [Storage.width, Operand.width, UInt32.lt_iff_toNat_lt] using hlt
  have htail := p2.trans p3
  refine ⟨st, x, idx, _, hst, unaryOperand_eq_ok.mp hops, p1.trans htail,
    htail.values hbx, fun A hA => ?_⟩
  have w2 := p3.within hA
  have w1 := p2.within w2
  obtain ⟨ox, ox', hox, hox', g1, hdirect⟩ := f1 A w1
  obtain ⟨e1, e2, he1, he2, g2, -⟩ := f2 A w2
  cases (operand_get ho w1).symm.trans hox'
  cases hox'.symm.trans he1
  obtain ⟨e3, he3, hget, rfl⟩ := f3 A hA
  cases he2.symm.trans he3
  rw [← hd] at g2
  refine ⟨ox, _, hox, hget, ?_⟩
  rw [n3, ← hd]
  exact .mk g1 hdirect g2 hwiden

/-- Reinterpretations keep or copy their operand. -/
theorem lowerReinterpret_code (h : Runs (lowerReinterpret i) env s id s') :
    ∃ st x idx code, scalarStorage i.ty "reinterpretation" = .ok st ∧ i.operands = [x] ∧
      Path env s s' code ∧ s'.values.find? x = some idx ∧
      ∀ A : Arena, s'.Within A →
        Fetches A idx id s.vregs code s'.vregs fun _ o' => o'.isRegister = true := by
  simp only [lowerReinterpret, runs_bind, runs_check] at h
  obtain ⟨st, _, ⟨hst, rfl⟩, x, _, ⟨hops, rfl⟩, idx, s1, hx, hreg⟩ := h
  obtain ⟨p1, n1, hbx⟩ := resolve_path hx
  obtain ⟨code, p2, f2⟩ := intoRegister_fetch hreg
  refine ⟨st, x, idx, code, hst, unaryOperand_eq_ok.mp hops, p1.after p2, p2.values hbx,
    fun A hA => ?_⟩
  rw [← n1]
  exact f2 A hA

end InstSelect.Lowering
