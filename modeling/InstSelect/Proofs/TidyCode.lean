import InstSelect.Proofs.RegisterNumbers
import InstSelect.Proofs.Totality

/-!
# Tidy code

The discipline of virtual registers within the code of one instruction. A fresh register
is defined, by an instruction that writes it without reading it, right after it was
numbered and before anything else names it; every other instruction names registers that
are there already, and writes only registers that this stretch of code has numbered. Every
instruction can be encoded, whatever constants it names. The discipline does not depend on
the calling convention.

Operand ids are 32-bit, so what an id stands for is certain only while the arena is small;
`Tidily` claims the discipline of a stretch of selection for that case.
-/

namespace InstSelect.Machine

variable {n : Nat} {c : Code} {r : VReg}

/-- Operations that write their destination without reading it. -/
def Op.defines : Op → Bool
  | .mov | .lea | .movzx | .movsx | .setcc _ => true
  | _ => false

/-- Operations that take no immediate. -/
def Op.lacksImm : Op → Bool
  | .imul | .div | .idiv | .movzx | .movsx | .lea | .test => true
  | _ => false

/--
Operations whose operands may be immediates of any size, as far as shapes go; shifts mask
theirs.
-/
def Op.acceptsWide : Op → Bool
  | .mov | .add | .sub | .and | .or | .xor | .cmp | .test => true
  | _ => false

theorem Op.eq_mov (op : Op) (hop : op.defines = true) (hwide : op.acceptsWide = true) :
    op = .mov := by
  cases op <;>
    first
    | rfl
    | exact absurd hop Bool.false_ne_true
    | exact absurd hwide Bool.false_ne_true

/-- Operands that fit a sign-extended 32-bit field if they are immediates. -/
def Operand.narrow (o : Operand) : Bool := !o.isImm || o.isImm32

theorem Operand.isImm_eq (o : Operand) : o.isImm = decide (o.shape = .imm) := by
  obtain ⟨form, st⟩ := o
  cases form <;> rfl

namespace Code

/-- An instruction that names a register, itself or in an address. -/
def Mentions (c : Code) (r : VReg) : Prop := ∃ o ∈ c.operands, r ∈ o.vregs

/-- An instruction that writes a register. -/
def Writes (c : Code) (r : VReg) : Prop := ∃ o ∈ c.dst?, o.form = .virt r

/-- An instruction that writes a register and does not read it. -/
def Defines (c : Code) (r : VReg) : Prop :=
  c.op.defines = true ∧ ∃ st srcs, c.operands = ⟨.virt r, st⟩ :: srcs ∧
    ∀ o ∈ srcs, r ∉ o.vregs

/--
Instructions whose immediates can be encoded: one that a sign-extended 32-bit field does
not hold is moved to a register or counts a shift, and some operations take none at all.
-/
def encodable (c : Code) : Bool :=
  match c.op, c.operands with
  | .mov, [dst, src] => !dst.isImm && (dst.isRegister || src.narrow)
  | .shl, [dst, _] | .shr, [dst, _] | .sar, [dst, _] => !dst.isImm
  | op, os => if op.lacksImm then os.all (!·.isImm) else os.all (·.narrow)

/-- All registers that an instruction names are numbered below `n`. -/
def Below (n : Nat) (c : Code) : Prop := ∀ o ∈ c.operands, o.Below n

theorem Below.mono {m : Nat} (h : c.Below n) (hle : n ≤ m) : c.Below m :=
  fun o ho => (h o ho).mono hle

theorem Below.not_mentions (h : c.Below n) (hr : n ≤ r.index.toNat) : ¬ c.Mentions r := by
  rintro ⟨o, ho, hmem⟩
  have := h o ho r hmem
  omega

theorem SparesVirt.not_writes (h : c.SparesVirt n) (hr : r.index.toNat < n) :
    ¬ c.Writes r := by
  rintro ⟨o, ho, hform⟩
  have := h o ho r hform
  omega

/--
Where the table of shapes lets any immediate pass, the operands themselves have to be
known.
-/
theorem encodable_of_accepts {op : Op} {os : List Operand}
    (haccepts : op.accepts os = true)
    (hwide : op.acceptsWide = true → ∀ dst src, os = [dst, src] →
      op = .mov ∧ dst.isRegister = true ∨
      op ≠ .test ∧ src.narrow = true ∨ src = dst) : encodable ⟨op, os⟩ = true := by
  unfold Op.accepts at haccepts
  -- One case for each row of the table.
  split at haccepts <;>
    simp [encodable, Op.lacksImm, Op.acceptsWide, Operand.narrow, Operand.isImm_eq,
      Shape.isPlace]
      at haccepts hwide ⊢ <;> grind

end Code

/--
`Tidy b n code m`: starting with `n` registers and ending with `m`, each instruction of
`code` defines the next register, or names registers that are there. Registers below `b`
are not written, and every instruction can be encoded.
-/
inductive Tidy (b : Nat) : Nat → List Code → Nat → Prop
  | nil (n : Nat) : Tidy b n [] n
  | use {n m : Nat} {c : Code} {rest : List Code} (encodes : c.encodable = true)
      (below : c.Below n) (spares : c.SparesVirt b) (tail : Tidy b n rest m) :
      Tidy b n (c :: rest) m
  | define {n m : Nat} {op : Op} {r : VReg} {st : Storage} {srcs : List Operand}
      {rest : List Code} (encodes : Code.encodable ⟨op, ⟨.virt r, st⟩ :: srcs⟩ = true)
      (pure : op.defines = true) (fresh : r.index.toNat = n) (late : b ≤ n)
      (below : ∀ o ∈ srcs, o.Below n) (tail : Tidy b (n + 1) rest m) :
      Tidy b n (⟨op, ⟨.virt r, st⟩ :: srcs⟩ :: rest) m

namespace Tidy

variable {b n m : Nat} {code : List Code}

theorem le (h : Tidy b n code m) : n ≤ m := by
  induction h with
  | nil n => exact Nat.le_refl n
  | use _ _ _ _ ih => exact ih
  | define _ _ _ _ _ _ ih => omega

theorem append {k : Nat} {xs ys : List Code} (h : Tidy b n xs m) (h' : Tidy b m ys k) :
    Tidy b n (xs ++ ys) k := by
  induction h with
  | nil => exact h'
  | use encodes below spares _ ih => exact .use encodes below spares (ih h')
  | define encodes pure fresh late below _ ih =>
    exact .define encodes pure fresh late below (ih h')

/-- Tidy code can be encoded. -/
theorem encodable (h : Tidy b n code m) : ∀ c ∈ code, c.encodable = true := by
  induction h with
  | nil => simp
  | use encodes _ _ _ ih => exact List.forall_mem_cons.mpr ⟨encodes, ih⟩
  | define encodes _ _ _ _ _ ih => exact List.forall_mem_cons.mpr ⟨encodes, ih⟩

/-- Tidy code names registers below the final count only. -/
theorem bounded (h : Tidy b n code m) : ∀ c ∈ code, c.Below m := by
  induction h with
  | nil => simp
  | use _ below _ tail ih => exact List.forall_mem_cons.mpr ⟨below.mono tail.le, ih⟩
  | @define n m op r st srcs rest _ _ fresh _ below tail ih =>
    refine List.forall_mem_cons.mpr ⟨fun o ho => ?_, ih⟩
    have hle := tail.le
    rcases List.mem_cons.mp ho with rfl | ho
    · intro q hq
      cases List.mem_singleton.mp hq
      omega
    · exact (below o ho).mono (by omega)

/-- Tidy code spares older registers. -/
theorem spares (h : Tidy b n code m) : ∀ c ∈ code, c.SparesVirt b := by
  induction h with
  | nil => simp
  | use _ _ spares _ ih => exact List.forall_mem_cons.mpr ⟨spares, ih⟩
  | define _ _ fresh late _ _ ih =>
    refine List.forall_mem_cons.mpr ⟨fun dst hdst q hform => ?_, ih⟩
    unfold Code.dst? at hdst
    split at hdst
    · cases hdst
      cases hform
      omega
    · cases hdst

/-- A new register first occurs as the destination of an instruction that defines it. -/
theorem first (h : Tidy b n code m) (hn : n ≤ r.index.toNat) (hm : r.index.toNat < m) :
    ∃ xs c ys, code = xs ++ c :: ys ∧ (∀ x ∈ xs, ¬ x.Mentions r) ∧ c.Defines r := by
  induction h with
  | nil => omega
  | @use n m c rest _ below _ _ ih =>
    obtain ⟨xs, d, ys, rfl, hxs, hd⟩ := ih hn hm
    exact ⟨c :: xs, d, ys, rfl, List.forall_mem_cons.mpr ⟨below.not_mentions hn, hxs⟩, hd⟩
  | @define n m op q st srcs rest _ pure fresh _ below _ ih =>
    by_cases hq : r.index.toNat = n
    · obtain rfl : q = r := congrArg VReg.mk (UInt32.toNat_inj.mp (fresh.trans hq.symm))
      refine ⟨[], _, rest, rfl, by simp, pure, st, srcs, rfl, fun o ho hmem => ?_⟩
      have := below o ho q hmem
      omega
    · obtain ⟨xs, d, ys, rfl, hxs, hd⟩ := ih (by omega) hm
      refine ⟨_ :: xs, d, ys, rfl, List.forall_mem_cons.mpr ⟨?_, hxs⟩, hd⟩
      rintro ⟨o, ho, hmem⟩
      rcases List.mem_cons.mp ho with rfl | ho
      · cases List.mem_singleton.mp hmem
        exact hq fresh
      · have := below o ho r hmem
        omega

end Tidy

end InstSelect.Machine

namespace InstSelect.Lowering

open IR (ValueId)
open Machine (Storage Operand OperandId Op VReg Code Arena Tidy)

variable {env : Env} {s s' t u : State} {c c' : Current} {b : Nat} {id dst : OperandId}
  {o o' : Operand} {P Q : Operand → Prop} {code : List Code} {op : Op}
  {ids : List OperandId} {w : Unit} {st : Storage} {v : ValueId} {os : List Operand}

/-! ## What ids stand for -/

namespace State

/-- The ids of the function being built tell its operands apart. -/
def Small (s : State) : Prop := ∀ c, s.current = some c → c.machine.operands.size ≤ 2 ^ 32

theorem Small.of_current (hc : s.current = some c)
    (hsmall : c.machine.operands.size ≤ 2 ^ 32) : s.Small := by
  intro d hd
  cases hc.symm.trans hd
  exact hsmall

/-- As long as ids tell operands apart, an id stands for an operand with a property. -/
def Stands (s : State) (id : OperandId) (P : Operand → Prop) : Prop :=
  s.Small → ∃ o, s.Holds id o ∧ P o

theorem Holds.unique (h : s.Holds id o) (h' : s.Holds id o') : o = o' := by
  obtain ⟨c, hc, ho⟩ := h
  obtain ⟨d, hd, ho'⟩ := h'
  cases hc.symm.trans hd
  exact Option.some.inj (ho.symm.trans ho')

theorem Small.earlier (h : s'.Small) (hf : Follows env s s') : s.Small := by
  intro c hc
  obtain ⟨c', hc', hg⟩ := hf.grown hc
  have hle : c.machine.operands.size ≤ c'.machine.operands.size := by
    simpa using hg.operands.length_le
  exact Nat.le_trans hle (h c' hc')

theorem Stands.later (h : s.Stands id P) (hf : Follows env s s') : s'.Stands id P := by
  intro hsmall
  obtain ⟨o, ho, hp⟩ := h (hsmall.earlier hf)
  exact ⟨o, ho.later hf, hp⟩

theorem Stands.imp (h : s.Stands id P) (hpq : ∀ o, P o → Q o) : s.Stands id Q := by
  intro hsmall
  obtain ⟨o, ho, hp⟩ := h hsmall
  exact ⟨o, ho, hpq o hp⟩

/-- What a small arena says about an id. -/
theorem Stands.of_get (hc : s.current = some c)
    (h : ∀ A : Arena, s.Within A → A.get? id = some o) : s.Stands id (· = o) := by
  intro hsmall
  have hget := h (c.arena (hsmall c hc)) (within_arena hc _)
  exact ⟨o, ⟨c, hc, operand_eq_ok.mp (operand_of_arena hget)⟩, rfl⟩

end State

theorem Adds.stands (h : Adds env s s' id o) (hc : s'.current = some c) :
    s'.Stands id (· = o) :=
  .of_get hc h.get

/-! ## States in which selection goes on -/

/-- A label stands only for the block that it is the label of. -/
def LabelOf (env : Env) (s : State) (v : ValueId) (o : Operand) : Prop :=
  ∀ mb, o.form = .label mb →
    ∃ ty b, env.module.value v = .ok ⟨ty, .block b⟩ ∧ s.blocks.find? b = some mb

theorem LabelOf.later (h : LabelOf env s v o) (hf : Follows env s s') :
    LabelOf env s' v o := by
  intro mb hform
  obtain ⟨ty, b, hv, hb⟩ := h mb hform
  exact ⟨ty, b, hv, hf.blocks hb⟩

/-- What holds of a function being built, whatever the convention. -/
structure Settled (env : Env) (s : State) (c : Current) : Prop where
  current : s.current = some c
  numbered : c.machine.Numbered
  args : ∀ id ∈ c.machine.args, ∃ r st, s.Holds id ⟨.phys r, st⟩
  values : ∀ v id, s.values.find? v = some id → s.Stands id (LabelOf env s v)

namespace Settled

/-- The registers that an operand names are there. -/
theorem below (h : Settled env s c) (ho : s.Holds id o) : o.Below s.vregs := by
  obtain ⟨d, hd, hget⟩ := ho
  cases h.current.symm.trans hd
  rw [State.vregs_eq h.current]
  exact h.numbered.below o (Array.mem_of_getElem? hget)

/-- Bindings that are not new stay as they were. -/
theorem persist (h : Settled env s c) (hf : Follows env s s') (hc' : s'.current = some c')
    (hnumbered : c'.machine.Numbered)
    (hvalues : ∀ v id, s'.values.find? v = some id →
      s.values.find? v = some id ∨ s'.Stands id (LabelOf env s' v)) :
    Settled env s' c' where
  current := hc'
  numbered := hnumbered
  args := by
    obtain ⟨d, hd, hg⟩ := hf.grown h.current
    cases hc'.symm.trans hd
    intro id hid
    obtain ⟨r, st, ho⟩ := h.args id (hg.args ▸ hid)
    exact ⟨r, st, ho.later hf⟩
  values := by
    intro v id hv
    rcases hvalues v id hv with hold | hnew
    · exact ((h.values v id hold).later hf).imp fun _ ho => ho.later hf
    · exact hnew

/-- The operand of a leaf is a label only if the leaf is a block. -/
theorem stands_of_leaf (h : Settled env s c) (hleaf : Leaf env s c v id) :
    s.Stands id (LabelOf env s v) := by
  have hnames : ∀ {o : Operand}, c.machine.Names id o → s.Stands id (· = o) := fun hn =>
    .of_get h.current fun A hA => hn.get? (hA c h.current)
  cases hleaf with
  | argument ty index value arg =>
    intro _
    obtain ⟨r, st, ho⟩ := h.args id (List.mem_of_getElem? arg)
    exact ⟨_, ho, fun mb hform => by cases hform⟩
  | constant _ _ _ _ _ _ _ names | function _ _ _ _ _ _ _ names
  | global _ _ _ _ _ names =>
    refine (hnames names).imp ?_
    rintro o rfl mb hform
    cases hform
  | block ty b mb value block names =>
    refine (hnames names).imp ?_
    rintro o rfl mb' hform
    cases hform
    exact ⟨ty, b, value, block⟩

theorem grow (h : Settled env s c) (hg : Grow env s s' code) :
    ∃ c', Settled env s' c' := by
  obtain ⟨c', hc', -⟩ := hg.grown h.current
  refine ⟨c', h.persist (.grow hg) hc' (hg.numbered h.current hc' h.numbered)
    fun v id hv => ?_⟩
  cases hg with
  | @value d v' id' current unbound leaf =>
    cases h.current.symm.trans current
    rw [Bindings.find?_insert] at hv
    split at hv
    · next heq =>
      subst heq
      cases hv
      exact .inr (h.stands_of_leaf leaf)
    · exact .inl hv
  | operand | inst | block | reserve => exact .inl hv

theorem edit {blocks : Array Machine.Block} (h : Settled env s c)
    (hsize : blocks.size = c.machine.blocks.size)
    (hnames : ∀ k : Nat, blocks[k]?.map (·.name) = c.machine.blocks[k]?.map (·.name)) :
    Settled env (s.withMachine c { c.machine with blocks })
    { c with machine := { c.machine with blocks } } :=
  h.persist (.edit h.current hsize hnames) rfl (h.numbered.congr rfl rfl) fun _ _ hv =>
    .inl hv

theorem later (h : Settled env s c) (hf : Follows env s s') :
    ∃ c', Settled env s' c' := by
  induction hf generalizing c with
  | refl => exact ⟨c, h⟩
  | grow hg => exact h.grow hg
  | edit current size names =>
    cases h.current.symm.trans current
    exact ⟨_, h.edit size names⟩
  | trans _ _ ih ih' =>
    obtain ⟨d, hd⟩ := ih h
    exact ih' hd

end Settled

/--
Selection is under way: registers from `b` on belong to the instruction being lowered.
-/
structure Underway (env : Env) (b : Nat) (s : State) : Prop where
  settled : ∃ c, Settled env s c
  own : b ≤ s.vregs

namespace Underway

theorem path (h : Underway env b s) (hp : Path env s s' code) : Underway env b s' := by
  obtain ⟨c, hc⟩ := h.settled
  exact ⟨hc.later (.of_path hp), Nat.le_trans h.own hp.vregs_le⟩

/-- What an id stands for now names registers that are there now. -/
theorem stands_below (h : Underway env b s) (hid : s.Stands id P) :
    s.Stands id (·.Below s.vregs) := by
  obtain ⟨c, hc⟩ := h.settled
  intro hsmall
  obtain ⟨o, ho, -⟩ := hid hsmall
  exact ⟨o, ho, hc.below ho⟩

end Underway

/-! ## Tidy stretches -/

/--
Selection went from one state to another by tidy code, in which the instructions `ts`
leave the block.
-/
def Tidily (env : Env) (b : Nat) (s : State) (ts : List Code) (s' : State) : Prop :=
  ∃ code, Path env s s' code ∧ code.filter (·.op.isTerminator) = ts ∧
    (s'.Small → Tidy b s.vregs code s'.vregs)

namespace Tidily

variable {xs ys ts : List Code}

theorem refl (s : State) : Tidily env b s [] s := ⟨[], .refl s, rfl, fun _ => .nil _⟩

theorem trans (h : Tidily env b s xs t) (h' : Tidily env b t ys s') :
    Tidily env b s (xs ++ ys) s' := by
  obtain ⟨code, hpath, rfl, htidy⟩ := h
  obtain ⟨code', hpath', rfl, htidy'⟩ := h'
  refine ⟨code ++ code', hpath.trans hpath', List.filter_append .., fun hsmall => ?_⟩
  exact (htidy (hsmall.earlier (.of_path hpath'))).append (htidy' hsmall)

/-- Composition where the first part does not leave the block. -/
theorem seq (h : Tidily env b s [] t) (h' : Tidily env b t ts s') :
    Tidily env b s ts s' :=
  h.trans h'

/-- Operands that need no register. -/
theorem of_path (hp : Path env s s' []) (hn : s'.vregs = s.vregs) :
    Tidily env b s [] s' :=
  ⟨[], hp, rfl, fun _ => hn ▸ .nil _⟩

theorem of_adds (h : Adds env s s' id o) : Tidily env b s [] s' := of_path h.path h.vregs

theorem follows (h : Tidily env b s ts s') : Follows env s s' := by
  obtain ⟨code, hpath, -⟩ := h
  exact .of_path hpath

theorem underway (h : Tidily env b s ts s') (hu : Underway env b s) :
    Underway env b s' := by
  obtain ⟨code, hpath, -⟩ := h
  exact hu.path hpath

end Tidily

/-- An operand that, if it is a virtual register, is numbered from `b` on. -/
def Own (b : Nat) (o : Operand) : Prop := ∀ r, o.form = .virt r → b ≤ r.index.toNat

/-- A virtual register numbered from `b` on. -/
def Fresh (b : Nat) (o : Operand) : Prop := ∃ r, o.form = .virt r ∧ b ≤ r.index.toNat

theorem Fresh.own (h : Fresh b o) : Own b o := by
  obtain ⟨r, hform, hr⟩ := h
  intro q hq
  cases hform.symm.trans hq
  exact hr

/-- An emitted instruction has the operands that its ids stand for. -/
theorem emit_holds (h : Runs (emit op ids) env s w s') :
    ∃ os, Path env s s' [⟨op, os⟩] ∧ s'.vregs = s.vregs ∧ List.Forall₂ s.Holds ids os ∧
      op.accepts os = true := by
  obtain ⟨c, mb, blk, os, hc, hblock, hopen, hos, hacc, hblk, -, rfl⟩ := runs_emit.mp h
  exact ⟨os, .step (.inst hc hblock hos hacc hblk), (State.vregs_eq hc).symm,
    hos.imp fun id o ho => ⟨c, hc, ho⟩, hacc⟩

theorem below_of_holds (hc : Settled env s c) (h : List.Forall₂ s.Holds ids os) :
    ∀ o ∈ os, o.Below s.vregs := by
  intro o ho
  obtain ⟨id, -, hid⟩ := exists_left_of_forall₂ h o ho
  exact hc.below hid

/-- Operands whose immediates an operation can encode, if it accepts their shapes. -/
inductive Takes (s : State) : Op → List OperandId → Prop
  | free {op : Op} {ids : List OperandId} (shapes : op.acceptsWide = false) :
      Takes s op ids
  | register {dst src : OperandId} (register : s.Stands dst (·.isRegister = true)) :
      Takes s .mov [dst, src]
  | narrow {op : Op} {dst src : OperandId} (other : op ≠ .test)
      (narrow : s.Stands src (·.narrow = true)) :
      Takes s op [dst, src]
  | same {op : Op} {id : OperandId} : Takes s op [id, id]

theorem Takes.encodable (h : Takes s op ids) (hsmall : s.Small)
    (hos : List.Forall₂ s.Holds ids os) (haccepts : op.accepts os = true) :
    Code.encodable ⟨op, os⟩ = true := by
  refine Code.encodable_of_accepts haccepts ?_
  rintro hwide dst src rfl
  cases h with
  | free shapes => rw [shapes] at hwide; cases hwide
  | register register =>
    obtain ⟨o, ho, hreg⟩ := register hsmall
    cases ho.unique (List.forall₂_cons.mp hos).1
    exact .inl ⟨rfl, hreg⟩
  | narrow other narrow =>
    obtain ⟨o, ho, hnarrow⟩ := narrow hsmall
    cases ho.unique (List.forall₂_cons.mp (List.forall₂_cons.mp hos).2).1
    exact .inr (.inl ⟨other, hnarrow⟩)
  | same =>
    obtain ⟨hdst, hrest⟩ := List.forall₂_cons.mp hos
    exact .inr (.inr ((List.forall₂_cons.mp hrest).1.unique hdst))

/-- An instruction that names existing registers and writes, if any, an own one. -/
theorem emit_tidily (hu : Underway env b s) (hstays : op.isTerminator = false)
    (htakes : Takes s op ids)
    (hdst : op.writes = true → ∀ id ∈ ids.head?, s.Stands id (Own b))
    (h : Runs (emit op ids) env s w s') :
    Tidily env b s [] s' := by
  obtain ⟨c, hc⟩ := hu.settled
  obtain ⟨os, hpath, hvregs, hos, haccepts⟩ := emit_holds h
  refine ⟨_, hpath, by simp [hstays], fun hsmall => ?_⟩
  rw [hvregs]
  have hsmall' := hsmall.earlier (.of_path hpath)
  refine .use (htakes.encodable hsmall' hos haccepts) (below_of_holds hc hos)
    (fun dst hdst' r hform => ?_) (.nil _)
  unfold Code.dst? at hdst'
  split at hdst'
  · next hwrites =>
    cases hos with
    | nil => cases hdst'
    | @cons id o ids os hd _ =>
      cases hdst'
      obtain ⟨o', ho', hown⟩ := hdst hwrites id rfl hsmall'
      cases hd.unique ho'
      exact hown r hform
  · cases hdst'

/-- An instruction that leaves the block. -/
theorem leave_tidily (hu : Underway env b s) (hleaves : op.isTerminator = true)
    (h : Runs (emit op ids) env s w s') : ∃ os, List.Forall₂ s.Holds ids os ∧
      Tidily env b s [⟨op, os⟩] s' := by
  obtain ⟨c, hc⟩ := hu.settled
  obtain ⟨os, hpath, hvregs, hos, haccepts⟩ := emit_holds h
  refine ⟨os, hos, _, hpath, by simp [hleaves], fun hsmall => ?_⟩
  rw [hvregs]
  obtain ⟨hwrites, hshapes⟩ : op.writes = false ∧ op.acceptsWide = false := by
    cases op <;> first | exact ⟨rfl, rfl⟩ | cases hleaves
  have hencodes :=
    (Takes.free hshapes).encodable (hsmall.earlier (.of_path hpath)) hos haccepts
  refine .use hencodes (below_of_holds hc hos) (fun dst hdst => ?_) (.nil _)
  simp [Code.dst?, hwrites] at hdst

theorem newVReg_stands (h : Runs (newVReg st) env s id s') :
    ∃ r : VReg, r.index.toNat = s.vregs ∧ s'.vregs = s.vregs + 1 ∧ Path env s s' [] ∧
      s'.Stands id (· = ⟨.virt r, st⟩) := by
  obtain ⟨r, hr, hvregs, hpath, hget⟩ := newVReg_adds h
  obtain ⟨c, -, -, -, -, -, rfl⟩ := runs_newVReg.mp h
  exact ⟨r, hr, hvregs, hpath, .of_get rfl hget⟩

/--
A fresh register and the instruction that defines it; in between only operands are made.
What the instruction reads was there before the register.
-/
theorem define_tidily {rest : List OperandId} (hu : Underway env b s)
    (hnew : Runs (newVReg st) env s dst t) (hquiet : Path env t u [])
    (hvregs : u.vregs = t.vregs) (hop : op.defines = true)
    (hrest : ∀ id ∈ rest, u.Stands id (·.Below s.vregs))
    (hemit : Runs (emit op (dst :: rest)) env u w s') :
    Tidily env b s [] s' ∧ s'.Stands dst (Fresh b) := by
  obtain ⟨r, hr, hnext, p1, hdst⟩ := newVReg_stands hnew
  obtain ⟨os, p3, hsame, hos, haccepts⟩ := emit_holds hemit
  have hdst' := (hdst.later (.of_path hquiet)).later (.of_path p3)
  have hown : Fresh b ⟨.virt r, st⟩ := ⟨r, rfl, hr ▸ hu.own⟩
  refine ⟨⟨_, p1.after (hquiet.after p3), ?_, fun hsmall => ?_⟩, hdst'.imp fun o ho =>
    ho ▸ hown⟩
  · cases op <;> first | rfl | cases hop
  · have hsmall' := hsmall.earlier (.of_path p3)
    obtain ⟨d, srcs, hd, hsrcs, rfl⟩ := List.forall₂_cons_left_iff.mp hos
    obtain ⟨o, ho, rfl⟩ := (hdst.later (.of_path hquiet)) hsmall'
    cases hd.unique ho
    rw [hsame, hvregs, hnext]
    have hencodes := Code.encodable_of_accepts haccepts fun hwide dst src heq => by
      cases heq
      exact .inl ⟨op.eq_mov hop hwide, rfl⟩
    refine .define hencodes hop hr hu.own (fun o ho => ?_) (.nil _)
    obtain ⟨id, hid, hholds⟩ := exists_left_of_forall₂ hsrcs o ho
    obtain ⟨o', ho', hbelow⟩ := hrest id hid hsmall'
    cases ho'.unique hholds
    exact hbelow

/-- What an id stands for now is older than a register that is numbered next. -/
theorem Underway.older (hu : Underway env b s) (hid : s.Stands id P)
    (hnew : Runs (newVReg st) env s dst t) (hp : Path env t u code) :
    u.Stands id (·.Below s.vregs) := by
  obtain ⟨-, -, -, p1, -⟩ := newVReg_stands hnew
  exact ((hu.stands_below hid).later (.of_path p1)).later (.of_path hp)

end InstSelect.Lowering
