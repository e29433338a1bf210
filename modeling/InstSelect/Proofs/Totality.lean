import InstSelect.Proofs.IntegerSteps

/-!
# Steps that cannot fail

Lowering breaks off where an operand does not fit its instruction, a value is not bound,
or a counter leaves its word. To show that none of this happens, a step is given a total
specification: from a ready state with room for `n` more operands and blocks it comes to
an end, uses no more than that room, and leaves a state of which its postcondition holds.
Specifications compose along the steps of a routine, and what an id was found to hold
stays true in every later state.
-/

namespace InstSelect.Machine

variable {d : Operand}

/-- A request for an entry of a list. -/
def Request.isEntry : Request → Bool
  | .bytes _ => false
  | _ => true

/--
An allocator that has memory for every entry, and for as many bytes as it happens to have.
-/
def Allocator.Ample (alloc : Allocator) : Prop :=
  ∀ request, request.isEntry = true → alloc.refusal? request = none

theorem Allocator.host_ample : host.Ample := by
  intro request h
  cases request with
  | bytes count => cases h
  | operand | block | layout | inst | relocation | global | function => rfl

/--
An operand that carries a value of width `w`, in itself or as the address it stands for.
-/
structure Operand.IsValue (w : Nat) (o : Operand) : Prop where
  width : o.width = w
  form : o.isRegister = true ∨ o.isImm = true ∨ o.needsAddress = true ∧ o.storage = .ptr

/-- An operand that carries a value of width `w` in itself. -/
structure Operand.IsDirect (w : Nat) (o : Operand) : Prop where
  width : o.width = w
  form : o.isRegister = true ∨ o.isImm = true

/-- A register that carries a value of width `w`. -/
structure Operand.InReg (w : Nat) (o : Operand) : Prop where
  width : o.width = w
  form : o.isRegister = true

variable {w : Nat} {o : Operand}

theorem Operand.InReg.direct (h : o.InReg w) : o.IsDirect w := ⟨h.width, .inl h.form⟩

theorem Operand.IsDirect.value (h : o.IsDirect w) : o.IsValue w :=
  ⟨h.width, h.form.imp_right .inl⟩

theorem Operand.inReg_virt (r : VReg) (st : Storage) :
    (⟨.virt r, st⟩ : Operand).InReg st.width :=
  ⟨rfl, rfl⟩

theorem Operand.shape_of_isRegister (h : o.isRegister = true) : o.shape = .reg := by
  obtain ⟨form, st⟩ := o
  cases form with
  | phys | virt => rfl
  | _ => cases h

theorem Operand.shape_of_isImm (h : o.isImm = true) : o.shape = .imm := by
  obtain ⟨form, st⟩ := o
  cases form with
  | imm => rfl
  | _ => cases h

theorem Operand.shape_of_needsAddress (h : o.needsAddress = true) : o.shape = .mem := by
  obtain ⟨form, st⟩ := o
  cases form with
  | slot | symbol => rfl
  | _ => cases h

theorem Operand.needsAddress_of_shape (h : o.shape ≠ .mem) : o.needsAddress = false := by
  cases haddr : o.needsAddress with
  | false => rfl
  | true => exact absurd (shape_of_needsAddress haddr) h

/-- A direct operand is a source, and not memory. -/
theorem Operand.IsDirect.shape (h : o.IsDirect w) : o.shape = .reg ∨ o.shape = .imm :=
  h.form.imp shape_of_isRegister shape_of_isImm

theorem Operand.IsDirect.needsAddress (h : o.IsDirect w) : o.needsAddress = false := by
  refine needsAddress_of_shape fun hmem => ?_
  rcases h.shape with hs | hs <;> rw [hs] at hmem <;> cases hmem

/-- Every value can be copied into a register. -/
theorem Operand.IsValue.accepts_copy (h : o.IsValue w) (hd : d.shape = .reg) :
    o.copyOp.accepts [d, o] = true := by
  unfold copyOp
  rcases h.form with hreg | himm | ⟨haddr, -⟩
  · rw [needsAddress_of_shape (by rw [shape_of_isRegister hreg]; decide)]
    simp [Op.accepts, hd, shape_of_isRegister hreg, Shape.isPlace, Shape.isSource]
  · rw [needsAddress_of_shape (by rw [shape_of_isImm himm]; decide)]
    simp [Op.accepts, hd, shape_of_isImm himm, Shape.isPlace, Shape.isSource]
  · rw [haddr]
    simp [Op.accepts, hd, shape_of_needsAddress haddr]

theorem Operand.IsDirect.accepts_mov (h : o.IsDirect w) (hd : d.shape = .reg) :
    Op.mov.accepts [d, o] = true := by
  have hcopy := h.value.accepts_copy hd
  rwa [copyOp, h.needsAddress] at hcopy

/-- The register that a value is copied to has the value's width. -/
theorem Operand.IsValue.inRegister (h : o.IsValue w) (r : VReg) :
    (o.inRegister r).InReg w := by
  refine ⟨?_, rfl⟩
  rw [← h.width]
  unfold Operand.inRegister
  split
  · next haddr =>
    rcases h.form with hreg | himm | ⟨-, hst⟩
    · rw [needsAddress_of_shape (by rw [shape_of_isRegister hreg]; decide)] at haddr
      cases haddr
    · rw [needsAddress_of_shape (by rw [shape_of_isImm himm]; decide)] at haddr
      cases haddr
    · exact congrArg Storage.width hst.symm
  · rfl

/-- Each register and each slot of a function is one of its operands. -/
structure Function.Counted (f : Function) : Prop where
  vregs : f.nextVReg.toNat ≤ f.operands.size
  slots : f.nextSlot.toNat ≤ f.operands.size

theorem Function.Counted.extend {f : Function} {form : Form} (h : f.Counted)
    (st : Storage) (hadm : f.Admits form) : (f.extend form st).Counted := by
  have hsize : (f.extend form st).operands.size = f.operands.size + 1 :=
    Array.size_push ..
  have hnext : ∀ {a : UInt32}, a.toNat + 1 < 2 ^ 32 → (a + 1).toNat = a.toNat + 1 := by
    intro a hlt
    rw [UInt32.toNat_add]
    exact Nat.mod_eq_of_lt hlt
  have hv := Nat.le_succ_of_le h.vregs
  have hs := Nat.le_succ_of_le h.slots
  cases form with
  | virt r => exact ⟨hsize ▸ hnext hadm.2 ▸ Nat.succ_le_succ h.vregs, hsize ▸ hs⟩
  | slot r => exact ⟨hsize ▸ hv, hsize ▸ hnext hadm.2 ▸ Nat.succ_le_succ h.slots⟩
  | _ => exact ⟨hsize ▸ hv, hsize ▸ hs⟩

/-- A block that is replaced by one of its name leaves all names as they were. -/
theorem names_setIfInBounds {blocks : Array Block} {j : Nat} {b b' : Block}
    (hb : blocks[j]? = some b) (hname : b'.name = b.name) (k : Nat) :
    (blocks.setIfInBounds j b')[k]?.map (·.name) = blocks[k]?.map (·.name) := by
  rw [Array.getElem?_setIfInBounds]
  split
  · next hk =>
    subst hk
    rw [if_pos (Array.getElem?_eq_some_iff.mp hb).1, hb]
    exact congrArg some hname
  · rfl

end InstSelect.Machine

namespace InstSelect.Lowering

open IR (ValueId InstId)
open Machine (Storage Operand OperandId Op PhysReg Address Form Code)

variable {s s' t : State} {α β : Type} {n m w : Nat} {id : OperandId} {o : Operand}
  {c c' : Current} {env : Env} {code : List Code} {b : IR.BlockId} {op : Op}
  {ty : IR.Ty} {P : Operand → Prop} {p : Prop} {ids : List OperandId}
  {os : List Operand} {st : Storage} {data : IR.Block} {index : UInt32}

namespace State

/-- Number of operands and blocks of the function being built. -/
def size (s : State) : Nat :=
  match s.current with
  | some c => c.machine.operands.size + c.machine.blocks.size
  | none => 0

theorem size_eq (hc : s.current = some c) :
    s.size = c.machine.operands.size + c.machine.blocks.size := by
  rw [size, hc]

/-- The function being built has an operand under an id. -/
def Holds (s : State) (id : OperandId) (o : Operand) : Prop :=
  ∃ c, s.current = some c ∧ c.machine.operands[id.index.toNat]? = some o

end State

/--
Elementary changes, and changes to the code of blocks, lead from one state to another.
-/
inductive Follows (env : Env) : State → State → Prop
  | refl (s : State) : Follows env s s
  | grow {s s' : State} {code : List Code} (grow : Grow env s s' code) : Follows env s s'
  | edit {s : State} {c : Current} {blocks : Array Machine.Block}
      (current : s.current = some c) (size : blocks.size = c.machine.blocks.size)
      (names : ∀ k : Nat, blocks[k]?.map (·.name) = c.machine.blocks[k]?.map (·.name)) :
      Follows env s (s.withMachine c { c.machine with blocks })
  | trans {s t s' : State}
      (first : Follows env s t) (second : Follows env t s') : Follows env s s'

theorem Follows.of_path (h : Path env s s' code) : Follows env s s' := by
  induction h with
  | refl s => exact .refl s
  | step hg => exact .grow hg
  | trans _ _ ih ih' => exact ih.trans ih'

theorem Follows.grown (h : Follows env s s') (hc : s.current = some c) :
    ∃ c', s'.current = some c' ∧ Grown s s' c c' := by
  induction h generalizing c with
  | refl s => exact ⟨c, hc, .refl s c⟩
  | grow hg => exact (Path.step hg).grown hc
  | @edit s d blocks current size names =>
    cases hc.symm.trans current
    exact ⟨_, rfl, { Grown.refl s d with
      blocks := Nat.le_of_eq size.symm, output := rfl, functions := rfl, pending := rfl,
      values := fun _ _ h => h, blockMap := fun _ _ h => h }⟩
  | trans _ _ ih ih' =>
    obtain ⟨d, hd, hg⟩ := ih hc
    obtain ⟨c', hc', hg'⟩ := ih' hd
    exact ⟨c', hc', hg.trans hg'⟩

/-- What a value is bound to stays. -/
theorem Follows.values {v : ValueId} (h : Follows env s s')
    (hv : s.values.find? v = some id) :
    s'.values.find? v = some id := by
  induction h with
  | refl => exact hv
  | grow hg => exact (Path.step hg).values hv
  | edit => exact hv
  | trans _ _ ih ih' => exact ih' (ih hv)

/-- What a block is bound to stays. -/
theorem Follows.blocks {mb : Machine.BlockId} (h : Follows env s s')
    (hb : s.blocks.find? b = some mb) :
    s'.blocks.find? b = some mb := by
  induction h with
  | refl => exact hb
  | grow hg =>
    cases hg with
    | block current unknown => exact find?_insert_of_unbound unknown hb
    | operand | inst | value | reserve => exact hb
  | edit => exact hb
  | trans _ _ ih ih' => exact ih' (ih hb)

/-- Phis are not remembered by elementary changes. -/
theorem Follows.pending (h : Follows env s s') : s'.pendingPhis = s.pendingPhis := by
  induction h with
  | refl => rfl
  | grow hg => cases hg <;> rfl
  | edit => rfl
  | trans _ _ ih ih' => exact ih'.trans ih

theorem State.Holds.later (h : s.Holds id o) (hf : Follows env s s') : s'.Holds id o := by
  obtain ⟨c, hc, ho⟩ := h
  obtain ⟨c', hc', hg⟩ := hf.grown hc
  exact ⟨c', hc', Machine.Function.getElem?_of_prefix hg.operands ho⟩

/-! ## Total specifications -/

/-- A function is open and receives code, and has counted its registers and slots. -/
structure Accepting (s : State) (c : Current) : Prop where
  current : s.current = some c
  isOpen : c.machine.isSealed = false
  counted : c.machine.Counted
  receives : ∃ b, c.block = some b ∧ b.index.toNat < c.machine.blocks.size

/-- States in which code is selected. Whatever follows one of them is one of them. -/
structure Stage where
  env : Env
  ample : env.allocator.Ample
  Ready : State → Current → Prop
  accepting : ∀ {s c}, Ready s c → Accepting s c
  later : ∀ {s s' c}, Ready s c → Follows env s s' → ∃ c', Ready s' c'

/-- A defined function of a linked module, to be lowered for the standard convention. -/
structure Job where
  env : Env
  func : IR.FuncId
  f : IR.Function
  abi : env.abi = .win64
  ample : env.allocator.Ample
  linked : env.module.Linked
  function : env.module.function func = .ok f

variable {J : Job} {S : Stage} {x : LowerM α} {k : α → LowerM β} {Q Q' : α → State → Prop}
  {R : β → State → Prop} {a : α}

/--
A state in which the function is open, receives code, and has counted its registers and
slots.
-/
structure Ready (J : Job) (s : State) (c : Current) : Prop where
  session : ∃ sts, Session J.env J.func J.f sts s c
  receives : ∃ b, c.block = some b
  counted : c.machine.Counted

theorem Ready.current (h : Ready J s c) : s.current = some c := by
  obtain ⟨sts, hs⟩ := h.session
  exact hs.current

theorem Ready.isOpen (h : Ready J s c) : c.machine.isSealed = false := by
  obtain ⟨sts, hs⟩ := h.session
  exact hs.isOpen

theorem Grow.counted (hg : Grow env s s' code) (hc : s.current = some c)
    (hc' : s'.current = some c') (h : c.machine.Counted) : c'.machine.Counted := by
  cases hg with
  | operand current isOpen admits =>
    cases hc.symm.trans current
    cases hc'
    exact h.extend _ admits
  | value current =>
    cases hc.symm.trans hc'
    exact h
  | inst current | block current | reserve current =>
    cases hc.symm.trans current
    cases hc'
    exact ⟨h.vregs, h.slots⟩

theorem Path.counted (h : Path env s t code) (hc : s.current = some c)
    (hc' : t.current = some c') (hcounted : c.machine.Counted) :
    c'.machine.Counted := by
  induction h generalizing c c' with
  | refl =>
    cases hc.symm.trans hc'
    exact hcounted
  | step hg => exact hg.counted hc hc' hcounted
  | trans h _ ih ih' =>
    obtain ⟨d, hd, -⟩ := h.grown hc
    exact ih' hd hc' (ih hc hd hcounted)

theorem Ready.grow (h : Ready J s c) (hg : Grow J.env s s' code) :
    ∃ c', Ready J s' c' := by
  obtain ⟨sts, hs⟩ := h.session
  obtain ⟨c', hs'⟩ := hs.grow hg
  obtain ⟨d, hd, hgrown⟩ := (Path.step hg).grown hs.current
  cases hs'.current.symm.trans hd
  refine ⟨c', ⟨sts, hs'⟩, ?_, hg.counted hs.current hd h.counted⟩
  rw [hgrown.block]
  exact h.receives

theorem Ready.edit {d : Current} {blocks : Array Machine.Block} (h : Ready J s c)
    (current : s.current = some d) (size : blocks.size = d.machine.blocks.size)
    (names : ∀ k : Nat, blocks[k]?.map (·.name) = d.machine.blocks[k]?.map (·.name)) :
    ∃ c', Ready J (s.withMachine d { d.machine with blocks }) c' := by
  cases h.current.symm.trans current
  obtain ⟨sts, hs⟩ := h.session
  obtain ⟨c', hc', hg⟩ :=
    (show Follows J.env s _ from .edit h.current size names).grown h.current
  cases hc'
  refine ⟨_, ⟨sts, hs.persists (hg.persists rfl) (fun v id hv => .inl hv) ?_ ?_⟩,
    h.receives, h.counted.vregs, h.counted.slots⟩
  · intro b id hb
    exact Nat.lt_of_lt_of_le (hs.blocks b id hb) hg.blocks
  · intro id hid
    exact Nat.lt_of_lt_of_le (hs.insertion id hid) hg.blocks

theorem Ready.later (h : Ready J s c) (hf : Follows J.env s s') :
    ∃ c', Ready J s' c' := by
  induction hf generalizing c with
  | refl => exact ⟨c, h⟩
  | grow hg => exact h.grow hg
  | edit current size names => exact h.edit current size names
  | trans _ _ ih ih' =>
    obtain ⟨d, hd⟩ := ih h
    exact ih' hd

/-- The states in which a function is lowered for the standard convention. -/
def Job.stage (J : Job) : Stage where
  env := J.env
  ample := J.ample
  Ready := Ready J
  accepting := fun h => by
    obtain ⟨sts, hs⟩ := h.session
    obtain ⟨b, hb⟩ := h.receives
    exact ⟨hs.current, hs.isOpen, h.counted, b, hb, hs.insertion b hb⟩
  later := Ready.later

instance : Coe Job Stage := ⟨Job.stage⟩

/--
From a ready state with room for `n` operands and blocks, a step ends and leaves what `Q`
says.
-/
def Total (S : Stage) (n : Nat) (s : State) (x : LowerM α) (Q : α → State → Prop) :
    Prop :=
  ∀ c, S.Ready s c → s.size + n < 2 ^ 32 →
    ∃ a s', Runs x S.env s a s' ∧ Follows S.env s s' ∧ s'.size ≤ s.size + n ∧ Q a s'

namespace Total

theorem pure (hq : Q a s) : Total S n s (pure a) Q :=
  fun _ _ _ => ⟨a, s, runs_pure.mpr ⟨rfl, rfl⟩, .refl _, Nat.le_add_right _ _, hq⟩

theorem bind (hx : Total S n s x Q)
    (hk : ∀ a t, Follows S.env s t → Q a t → Total S m t (k a) R) :
    Total S (n + m) s (x >>= k) R := by
  intro c hc hroom
  obtain ⟨a, t, hrun, hfollows, hsize, hq⟩ := hx c hc (by omega)
  obtain ⟨d, hd⟩ := S.later hc hfollows
  obtain ⟨b, s', hrun', hfollows', hsize', hr⟩ := hk a t hfollows hq d hd (by omega)
  exact ⟨b, s', runs_bind.mpr ⟨a, t, hrun, hrun'⟩, hfollows.trans hfollows', by omega, hr⟩

/--
Composition where the room for the first step is known, so that the rest gets what is
left.
-/
theorem next (hx : Total S n s x Q)
    (hk : ∀ a t, Follows S.env s t → Q a t → Total S m t (k a) R) :
    Total S (m + n) s (x >>= k) R :=
  Nat.add_comm n m ▸ hx.bind hk

/-- The same for a step that answers with an operand. -/
theorem get {x : LowerM OperandId} {k : OperandId → LowerM β}
    (hx : Total S n s x fun id t => ∃ o, t.Holds id o ∧ P o)
    (hk : ∀ id o t, Follows S.env s t → t.Holds id o → P o → Total S m t (k id) R) :
    Total S (m + n) s (x >>= k) R := by
  refine hx.next fun id t hf hpost => ?_
  obtain ⟨o, ho, hP⟩ := hpost
  exact hk id o t hf ho hP

/-- Composition with a step that only has to end. -/
theorem seq (hx : Total S n s x fun _ _ => True)
    (hk : ∀ a t, Follows S.env s t → Total S m t (k a) R) :
    Total S (n + m) s (x >>= k) R :=
  hx.bind fun a t hf _ => hk a t hf

theorem mono (hx : Total S n s x Q) (hle : n ≤ m)
    (hq : ∀ a t, Follows S.env s t → Q a t → Q' a t) :
    Total S m s x Q' := by
  intro c hc hroom
  obtain ⟨a, t, hrun, hfollows, hsize, h⟩ := hx c hc (by omega)
  exact ⟨a, t, hrun, hfollows, by omega, hq a t hfollows h⟩

/-- More room does no harm. -/
theorem weaken (hx : Total S n s x Q) (hle : n ≤ m) : Total S m s x Q :=
  hx.mono hle fun _ _ _ hq => hq

/-- A step that reads the state needs no specification of its own. -/
theorem reading (h : Runs x S.env s a s) (hk : Total S n s (k a) R) :
    Total S n s (x >>= k) R := by
  intro c hc hroom
  obtain ⟨b, s', hrun, hrest⟩ := hk c hc hroom
  exact ⟨b, s', runs_bind.mpr ⟨a, s, h, hrun⟩, hrest⟩

theorem check {e : Except Failure α} (he : e = .ok a) (hk : Total S n s (k a) R) :
    Total S n s (check e >>= k) R :=
  reading (runs_check.mpr ⟨he, rfl⟩) hk

theorem require {condition : Bool} {broken : Violation} {k : Unit → LowerM β}
    (h : condition = true) (hk : Total S n s (k ()) R) :
    Total S n s (Lowering.check (InstSelect.require condition broken) >>= k) R :=
  check (require_eq_ok.mpr h) hk

theorem checkWord {e : Except Overflow α} (he : e = .ok a) (hk : Total S n s (k a) R) :
    Total S n s (checkWord e >>= k) R :=
  reading (runs_checkWord.mpr ⟨he, rfl⟩) hk

theorem sourceModule {k : IR.Module → LowerM β} (hk : Total S n s (k S.env.module) R) :
    Total S n s (sourceModule >>= k) R :=
  reading (runs_sourceModule.mpr ⟨rfl, rfl⟩) hk

theorem theAbi {k : Abi → LowerM β} (hk : Total J n s (k .win64) R) :
    Total J n s (theAbi >>= k) R :=
  reading (runs_theAbi.mpr ⟨J.abi, rfl⟩) hk

theorem operand {k : Operand → LowerM β} (ho : s.Holds id o) (hk : Total S n s (k o) R) :
    Total S n s (operand id >>= k) R := by
  obtain ⟨c, hc, ho⟩ := ho
  exact reading (runs_operand.mpr ⟨c, hc, ho, rfl⟩) hk

theorem storage {k : Storage → LowerM β} (ho : s.Holds id o)
    (hk : Total S n s (k o.storage) R) :
    Total S n s (storage id >>= k) R := by
  obtain ⟨c, hc, ho⟩ := ho
  exact reading (runs_storage.mpr ⟨o, runs_operand.mpr ⟨c, hc, ho, rfl⟩, rfl⟩) hk

theorem ite [Decidable p] {y : LowerM α} (hx : p → Total S n s x Q)
    (hy : ¬ p → Total S n s y Q) : Total S n s (if p then x else y) Q := by
  split
  · exact hx ‹_›
  · exact hy ‹_›

theorem ite_bind [Decidable p] {y : LowerM α}
    (h : Total S n s ((if p then x else y) >>= k) R) :
    Total S n s (if p then x >>= k else y >>= k) R := by
  split <;> rename_i hp
  · rwa [if_pos hp] at h
  · rwa [if_neg hp] at h

theorem map {f : α → β} (hx : Total S n s x fun a t => R (f a) t) :
    Total S n s (f <$> x) R := by
  intro c hc hroom
  obtain ⟨a, t, hrun, hrest⟩ := hx c hc hroom
  exact ⟨f a, t, runs_map.mpr ⟨a, hrun, rfl⟩, hrest⟩

end Total

/-! ## Elementary steps -/

/-- A new operand is held under the next id. -/
theorem extend_holds (hc : s.current = some c) (form : Form) (st : Storage)
    (hroom : s.size < 2 ^ 32) :
    (s.withMachine c (c.machine.extend form st)).size = s.size + 1 ∧
      (s.withMachine c (c.machine.extend form st)).Holds c.machine.nextId ⟨form, st⟩ := by
  have hsize := State.size_eq hc
  refine ⟨?_, _, rfl, ?_⟩
  · rw [State.size_eq rfl, hsize]
    show (c.machine.operands.push _).size + c.machine.blocks.size = _
    rw [Array.size_push]
    omega
  · show (c.machine.operands.push _)[(UInt32.ofNat c.machine.operands.size).toNat]? = _
    have hlt : c.machine.operands.size < 2 ^ 32 := by omega
    rw [UInt32.toNat_ofNat_of_lt' hlt, Array.getElem?_push_size]

/--
A step that adds an operand ends where there is room for one, and answers with its id.
-/
theorem Accepting.adds {x : LowerM OperandId} {Q : OperandId → State → Prop}
    (h : Accepting s c) (form : Form) (st : Storage) (hadm : c.machine.Admits form)
    (hrun : Runs x env s c.machine.nextId (s.withMachine c (c.machine.extend form st)))
    (hroom : s.size + 1 < 2 ^ 32)
      (hq : ∀ t, t.Holds c.machine.nextId ⟨form, st⟩ → Q c.machine.nextId t) :
    ∃ id t, Runs x env s id t ∧ Follows env s t ∧ t.size ≤ s.size + 1 ∧ Q id t := by
  obtain ⟨hsize, hholds⟩ := extend_holds h.current form st (by omega)
  exact ⟨_, _, hrun, .grow (.operand h.current h.isOpen hadm), Nat.le_of_eq hsize,
    hq _ hholds⟩

theorem newVReg_total (st : Storage) :
    Total S 1 s (newVReg st) fun id t => ∃ r, t.Holds id ⟨.virt r, st⟩ := by
  intro c hc hroom
  have h := S.accepting hc
  have hsize := State.size_eq h.current
  have hvregs := h.counted.vregs
  have hlt : c.machine.nextVReg.toNat + 1 < 2 ^ 32 := by omega
  exact h.adds (.virt ⟨c.machine.nextVReg⟩) st ⟨rfl, hlt⟩
    (runs_newVReg.mpr ⟨c, h.current, h.isOpen, S.ample _ rfl, hlt, rfl, rfl⟩) hroom
    fun _ ho => ⟨_, ho⟩

theorem newSlot_total (size : UInt64) (align : UInt32) :
    Total S 1 s (newSlot size align) fun id t =>
      ∃ slot, t.Holds id ⟨.slot slot size align, .ptr⟩ := by
  intro c hc hroom
  have h := S.accepting hc
  have hsize := State.size_eq h.current
  have hslots := h.counted.slots
  have hlt : c.machine.nextSlot.toNat + 1 < 2 ^ 32 := by omega
  exact h.adds (.slot ⟨c.machine.nextSlot⟩ size align) .ptr ⟨rfl, hlt⟩
    (runs_newSlot.mpr ⟨c, h.current, h.isOpen, S.ample _ rfl, hlt, rfl, rfl⟩) hroom
    fun _ ho => ⟨_, ho⟩

theorem physReg_total (reg : PhysReg) (st : Storage) :
    Total S 1 s (physReg reg st) fun id t => t.Holds id ⟨.phys reg, st⟩ := by
  intro c hc hroom
  have h := S.accepting hc
  exact h.adds (.phys reg) st
    trivial (runs_physReg.mpr ⟨c, h.current, h.isOpen, S.ample _ rfl, rfl, rfl⟩) hroom
    fun _ ho => ho

theorem imm_total (n : Int64) (st : Storage) :
    Total S 1 s (imm n st) fun id t => t.Holds id ⟨.imm n, st⟩ := by
  intro c hc hroom
  have h := S.accepting hc
  exact h.adds (.imm n) st
    trivial (runs_imm.mpr ⟨c, h.current, h.isOpen, S.ample _ rfl, rfl, rfl⟩) hroom
    fun _ ho => ho

theorem symbol_total (name : String) :
    Total S 1 s (symbol name) fun id t => t.Holds id ⟨.symbol name, .ptr⟩ := by
  intro c hc hroom
  have h := S.accepting hc
  exact h.adds (.symbol name) .ptr
    trivial (runs_symbol.mpr ⟨c, h.current, h.isOpen, S.ample _ rfl, rfl, rfl⟩) hroom
    fun _ ho => ho

/-- A memory reference may use the virtual registers that some id holds. -/
theorem mem_total {a : Address} (st : Storage)
    (ha : ∀ r, .virt r ∈ a.registers → ∃ id st', s.Holds id ⟨.virt r, st'⟩) :
    Total S 1 s (mem a st) fun id t => t.Holds id ⟨.mem a, st⟩ := by
  intro c hc hroom
  have h := S.accepting hc
  have hadm : c.machine.Admits (.mem a) := by
    intro r hr
    obtain ⟨id, st', c', hc', ho⟩ := ha r hr
    cases h.current.symm.trans hc'
    exact ⟨_, Array.mem_of_getElem? ho, rfl⟩
  exact h.adds (.mem a) st hadm
    (runs_mem.mpr ⟨c, h.current, h.isOpen, S.ample _ rfl, rfl, rfl⟩) hroom fun _ ho => ho

/-- An instruction enters the block that receives code if its operands fit. -/
theorem emit_total (hos : List.Forall₂ s.Holds ids os) (hacc : op.accepts os = true) :
    Total S 0 s (emit op ids) fun _ _ => True := by
  intro c hc _
  obtain ⟨hcurrent, isOpen, -, b, hb, hlt⟩ := S.accepting hc
  have hblock := Array.getElem?_eq_getElem hlt
  have hops : c.machine.Operands ids os := hos.imp fun id o ho => by
    obtain ⟨c', hc', ho⟩ := ho
    cases hcurrent.symm.trans hc'
    exact ho
  refine ⟨(), _, runs_emit.mpr ⟨c, b, _, os, hcurrent, hb, isOpen, hops, hacc, hblock,
    S.ample _ rfl, rfl⟩, .grow (.inst hcurrent hb hops hacc hblock), ?_, trivial⟩
  rw [State.size_eq rfl, State.size_eq hcurrent]
  show c.machine.operands.size + (c.machine.blocks.setIfInBounds _ _).size ≤ _
  rw [Array.size_setIfInBounds]
  exact Nat.le_refl _

namespace Total

theorem emits {k : Unit → LowerM β} (hos : List.Forall₂ s.Holds ids os)
    (hacc : op.accepts os = true) (hk : ∀ t, Follows S.env s t → Total S m t (k ()) R) :
    Total S m s (emit op ids >>= k) R :=
  (emit_total hos hacc).next fun _ t hf _ => hk t hf

theorem fresh {k : OperandId → LowerM β}
    (hk : ∀ id r t, Follows S.env s t → t.Holds id ⟨.virt r, st⟩ → Total S m t (k id) R) :
    Total S (m + 1) s (newVReg st >>= k) R := by
  refine (newVReg_total st).next fun id t hf hpost => ?_
  obtain ⟨r, hid⟩ := hpost
  exact hk id r t hf hid

/-- A fresh register that is filled by one instruction from one operand. -/
theorem fill (ho : s.Holds id o) (hacc : ∀ r, op.accepts [⟨.virt r, st⟩, o] = true) :
    Total S (m + 1) s (do
      let dst ← newVReg st
      emit op [dst, id]
      Pure.pure dst) fun dst t => ∃ o, t.Holds dst o ∧ o.InReg st.width :=
  fresh fun _ r _ hf hdst =>
    emits (.cons hdst (.cons (ho.later hf) .nil)) (hacc r) fun _ hf' =>
    pure ⟨_, hdst.later hf', Operand.inReg_virt r st⟩

end Total

/-- The block of an own source block exists or can be created. -/
theorem blockFor_total (hb : J.env.module.block b = .ok data)
    (hown : data.func = J.func) :
    Total J 1 s (blockFor b) fun id t => t.blocks.find? b = some id := by
  intro c hc hroom
  obtain ⟨sts, hs⟩ := hc.session
  cases hfind : s.blocks.find? b with
  | some id =>
    exact ⟨id, s, runs_blockFor.mpr (.inl ⟨hfind, rfl⟩), .refl _, Nat.le_succ _, hfind⟩
  | none =>
    have hsource : c.source = data.func := hs.source.trans hown.symm
    refine ⟨_, _,
      runs_blockFor.mpr (.inr ⟨c, data, hfind, hb, hc.current, hsource, hc.isOpen,
        J.ample _ rfl, rfl, rfl⟩), .grow (.block hc.current hfind hb hsource), ?_,
      Bindings.find?_insert_self _ _ _⟩
    rw [State.size_eq hc.current]
    show c.machine.operands.size + (c.machine.blocks.push _).size ≤ _
    rw [Array.size_push]
    omega

/-! ## Available values -/

/--
A value of width `w` that can be resolved: a leaf, or an instruction whose result is
bound.
-/
inductive Available (J : Job) (s : State) (w : Nat) (v : ValueId) : Prop
  | argument (ty : IR.Ty) (index : UInt32)
      (value : J.env.module.value v = .ok ⟨ty, .argument J.func index⟩)
      (width : ty.width? = some w)
  | constant (ty : IR.Ty) (k : IR.Constant) (n : Int64)
      (value : J.env.module.value v = .ok ⟨ty, .constant k⟩)
      (word : constantWord? k = some n) (width : ty.width? = some w)
  | function (ty : IR.Ty) (g : IR.FuncId) (d : IR.Function) (name : String)
      (value : J.env.module.value v = .ok ⟨ty, .function g⟩)
      (function : J.env.module.function g = .ok d)
      (symbol : J.env.abi.symbolName d.name = .ok name) (width : w = 64)
  | global (ty : IR.Ty) (g : IR.GlobalId) (d : IR.Global)
      (value : J.env.module.value v = .ok ⟨ty, .global g⟩)
      (global : J.env.module.global g = .ok d) (width : w = 64)
  | result (inst : InstId) (ty : IR.Ty) (id : OperandId) (o : Operand)
      (value : J.env.module.value v = .ok ⟨ty, .instruction inst⟩)
      (bound : s.values.find? v = some id) (holds : s.Holds id o) (isValue : o.IsValue w)

variable {v : ValueId}

theorem Available.later (h : Available J s w v) (hf : Follows J.env s t) :
    Available J t w v := by
  cases h with
  | argument ty index value width => exact .argument ty index value width
  | constant ty k n value word width => exact .constant ty k n value word width
  | function ty g d name value function symbol width =>
    exact .function ty g d name value function symbol width
  | global ty g d value global width => exact .global ty g d value global width
  | result inst ty id o value bound holds isValue =>
    exact .result inst ty id o value (hf.values bound) (holds.later hf) isValue

theorem Available.valueTy (h : Available J s w v) :
    ∃ ty, J.env.module.valueTy v = .ok ty := by
  cases h with
  | argument ty _ value | constant ty _ _ value | function ty _ _ _ value
  | global ty _ _ value
  | result _ ty _ _ value =>
    refine ⟨ty, ?_⟩
    rw [IR.Module.valueTy, value]
    rfl

theorem storageOf_of_width (hw : ty.width? = some w) :
    ∃ st, storageOf ty = .ok st ∧ st.isInteger = true ∧ st.width = w := by
  unfold IR.Ty.width? at hw
  split at hw
  · next st hst =>
    split at hw
    · next hint => exact ⟨st, hst, hint, Option.some.inj hw⟩
    · cases hw
  · cases hw

/-- In a small function, what an id was given out for is what it holds. -/
theorem Ready.holds (h : Ready J s c) (hroom : s.size < 2 ^ 32)
    (hname : c.machine.Names id o) :
    s.Holds id o := by
  obtain ⟨k, hk, rfl⟩ := hname
  have hsize := State.size_eq h.current
  have hlt := (Array.getElem?_eq_some_iff.mp hk).1
  have hbound : k < 2 ^ 32 := by omega
  refine ⟨c, h.current, ?_⟩
  rw [UInt32.toNat_ofNat_of_lt' hbound]
  exact hk

/-- The operand of an argument of the function. -/
theorem Ready.argument (h : Ready J s c)
    (hv : J.env.module.value v = .ok ⟨ty, .argument J.func index⟩) :
    ∃ id r st, c.machine.arg? index.toNat = some id ∧ storageOf ty = .ok st ∧
      c.machine.Names id ⟨.phys r, st⟩ := by
  obtain ⟨sts, hs⟩ := h.session
  obtain ⟨f', hf', -, hty⟩ := J.linked.values _ _ (IR.Module.value_eq_ok.mp hv)
  rw [← IR.Module.function_eq_ok] at hf'
  cases J.function.symm.trans hf'
  obtain ⟨hparam, rfl⟩ := List.getElem?_eq_some_iff.mp hty
  have hst : index.toNat < sts.length := hs.params.length_eq ▸ hparam
  have hfits : index.toNat < Abi.win64.argRegisters.length :=
    Nat.lt_of_lt_of_le hparam hs.fits
  have hin : (incoming sts)[index.toNat]? = some
      ⟨index.toNat, Abi.win64.argRegisters[index.toNat], sts[index.toNat]⟩ :=
    getElem?_incoming.mpr
      ⟨rfl, List.getElem?_eq_getElem hfits, List.getElem?_eq_getElem hst⟩
  have hop : ((incoming sts).map Machine.Incoming.operand)[index.toNat]? =
      some ⟨.phys Abi.win64.argRegisters[index.toNat], sts[index.toNat]⟩ := by
    rw [List.getElem?_map, hin]
    rfl
  obtain ⟨hlt, hop⟩ := List.getElem?_eq_some_iff.mp hop
  have hlt' : index.toNat < c.machine.args.length := hs.args.length_eq ▸ hlt
  have hname := hs.args.get hlt' hlt
  rw [List.get_eq_getElem, List.get_eq_getElem, hop] at hname
  exact ⟨_, _, _, List.getElem?_eq_getElem hlt',
    storageOf_of_scalarStorage (hs.params.get hparam hst), hname⟩

/-- What an available value is bound to is a value of its width. -/
theorem Ready.bound_isValue (h : Ready J s c) (hroom : s.size < 2 ^ 32)
    (hav : Available J s w v)
    (hfind : s.values.find? v = some id) : ∃ o, s.Holds id o ∧ o.IsValue w := by
  obtain ⟨sts, hs⟩ := h.session
  -- Instructions are bound to what is said of them; anything else is a leaf.
  have hleaf : ∀ {ty kind}, J.env.module.value v = .ok ⟨ty, kind⟩ →
      (∀ inst, kind ≠ .instruction inst) → Leaf J.env s c v id := by
    intro ty kind hv hkind
    cases hs.bound v id hfind with
    | leaf hleaf => exact hleaf
    | result k i hi hvalue _ =>
      subst hvalue
      cases hv.symm.trans (value_of_inst J.linked hi)
      exact absurd rfl (hkind k)
  cases hav with
  | argument ty index value width =>
    obtain ⟨id', r, st, harg, hst, hname⟩ := h.argument value
    cases hleaf value (fun _ hk => by cases hk) with
    | argument ty' index' value' arg =>
      rw [hs.source] at value'
      cases value.symm.trans value'
      cases harg.symm.trans arg
      exact ⟨_, h.holds hroom hname, width_of_storageOf width hst, .inl rfl⟩
    | constant _ _ _ _ value' | function _ _ _ _ value' | global _ _ _ value'
    | block _ _ _ value' => cases value.symm.trans value'
  | constant ty k n value word width =>
    cases hleaf value (fun _ hk => by cases hk) with
    | constant ty' k' n' st value' word' storage names =>
      cases value.symm.trans value'
      exact ⟨_, h.holds hroom names, width_of_storageOf width storage, .inr (.inl rfl)⟩
    | argument _ _ value' | function _ _ _ _ value' | global _ _ _ value'
    | block _ _ _ value' => cases value.symm.trans value'
  | function ty g d name value function symbol width =>
    cases hleaf value (fun _ hk => by cases hk) with
    | function ty' g' d' name' value' function' symbol' names =>
      exact ⟨_, h.holds hroom names, width.symm, .inr (.inr ⟨rfl, rfl⟩)⟩
    | argument _ _ value' | constant _ _ _ _ value' | global _ _ _ value'
    | block _ _ _ value' => cases value.symm.trans value'
  | global ty g d value global width =>
    cases hleaf value (fun _ hk => by cases hk) with
    | global ty' g' d' value' global' names =>
      exact ⟨_, h.holds hroom names, width.symm, .inr (.inr ⟨rfl, rfl⟩)⟩
    | argument _ _ value' | constant _ _ _ _ value' | function _ _ _ _ value'
    | block _ _ _ value' => cases value.symm.trans value'
  | result inst ty id' o value bound holds isValue =>
    cases hfind.symm.trans bound
    exact ⟨o, holds, isValue⟩

/-! ## Operands of values -/

theorem argumentOperand_total
    (hv : J.env.module.value v = .ok ⟨ty, .argument J.func index⟩) :
    Total J 0 s (argumentOperand v J.func index) fun _ _ => True := by
  intro c hc _
  obtain ⟨sts, hs⟩ := hc.session
  obtain ⟨id, r, st, harg, -⟩ := hc.argument hv
  refine ⟨id, s, ?_, .refl _, Nat.le_refl _, trivial⟩
  simp only [argumentOperand, runs_bind, runs_get]
  refine ⟨s, s, ⟨rfl, rfl⟩, ?_⟩
  simp only [hc.current, hs.source, harg, if_true, runs_pure, and_self]

theorem freshOperand_total (hav : Available J s w v)
    (hunbound : s.values.find? v = none) :
    Total J 1 s (freshOperand v) fun _ _ => True := by
  unfold freshOperand
  refine .sourceModule ?_
  cases hav with
  | argument ty index value width =>
    exact .check value ((argumentOperand_total value).weaken (Nat.le_succ _))
  | constant ty k n value word width =>
    obtain ⟨st, hst, -⟩ := storageOf_of_width width
    have hty : J.env.module.valueTy v = .ok ty := by rw [IR.Module.valueTy, value]; rfl
    refine .check value (.sourceModule (.check hty (.check hst ?_)))
    cases k with
    | int | null | zero | undef =>
      exact (imm_total _ _).mono (Nat.le_refl _) fun _ _ _ _ => trivial
    | float | bytes | aggregate => cases word
  | function ty g d name value function symbol width =>
    refine .check value (.check function (.theAbi (.check (J.abi ▸ symbol) ?_)))
    exact (symbol_total _).mono (Nat.le_refl _) fun _ _ _ _ => trivial
  | global ty g d value global width =>
    refine .check value (.check global ?_)
    exact (symbol_total _).mono (Nat.le_refl _) fun _ _ _ _ => trivial
  | result inst ty id o value bound holds isValue =>
    rw [hunbound] at bound
    cases bound

/-- A value resolves if its operand can be had, and to what bindings of it hold. -/
theorem resolve_total_of
    (hfresh : s.values.find? v = none → Total S n s (freshOperand v) fun _ _ => True)
    (hbound : ∀ t c id, Follows S.env s t → S.Ready t c → t.size < 2 ^ 32 →
      t.values.find? v = some id → ∃ o, t.Holds id o ∧ P o) :
    Total S n s (resolve v) fun id t => ∃ o, t.Holds id o ∧ P o := by
  intro c hc hroom
  cases hfind : s.values.find? v with
  | some id =>
    refine ⟨id, s, ?_, .refl _, Nat.le_add_right _ _,
      hbound s c id (.refl _) hc (by omega) hfind⟩
    refine runs_bind.mpr ⟨_, s, runs_lookupValue.mpr ⟨rfl, rfl⟩, ?_⟩
    rw [hfind]
    exact runs_pure.mpr ⟨rfl, rfl⟩
  | none =>
    obtain ⟨id, t, hrun, hfollows, hsize, -⟩ := hfresh hfind c hc hroom
    have hunbound : t.values.find? v = none := by
      rw [(freshOperand_path hrun).2.2.1]
      exact hfind
    have hresolve : Runs (resolve v) S.env s id
        { t with values := t.values.insert v id } := by
      refine runs_bind.mpr ⟨_, s, runs_lookupValue.mpr ⟨rfl, rfl⟩, ?_⟩
      rw [hfind]
      exact runs_bind.mpr ⟨id, t, hrun, runs_bind.mpr
        ⟨(), _, runs_bindValue.mpr ⟨hunbound, rfl⟩, runs_pure.mpr ⟨rfl, rfl⟩⟩⟩
    obtain ⟨hpath, -, hvalue⟩ := resolve_path hresolve
    obtain ⟨d, hd⟩ := S.later hc (.of_path hpath)
    have hsize' : State.size { t with values := t.values.insert v id } ≤ s.size + n :=
      hsize
    exact ⟨id, _, hresolve, .of_path hpath, hsize',
      hbound _ d id (.of_path hpath) hd (by omega) hvalue⟩

/-- An available value resolves to an operand that carries a value of its width. -/
theorem resolve_total (hav : Available J s w v) :
    Total J 1 s (resolve v) fun id t => ∃ o, t.Holds id o ∧ o.IsValue w :=
  resolve_total_of (freshOperand_total hav) fun _ _ _ hf hc hroom hfind =>
    hc.bound_isValue hroom (hav.later hf) hfind

/-- An own block resolves to its label. -/
theorem resolve_label_total (hv : J.env.module.value v = .ok ⟨ty, .block b⟩)
    (hb : J.env.module.block b = .ok data) (hown : data.func = J.func) :
    Total J 2 s (resolve v) fun id t => ∃ o, t.Holds id o ∧ o.shape = .label := by
  refine resolve_total_of (fun _ => ?_) fun t c id hf hc hroom hfind => ?_
  · refine .sourceModule (.check hv ?_)
    refine (blockFor_total hb hown).next fun mb t hf hmb c hc hroom => ?_
    obtain ⟨sts, hs⟩ := hc.session
    have hlt := hs.blocks b mb hmb
    exact (J.stage.accepting hc).adds (.label mb) .void hlt
      (runs_blockRef.mpr ⟨c, hc.current, hlt, hc.isOpen, J.ample _ rfl, rfl, rfl⟩) hroom
      fun _ _ => trivial
  · obtain ⟨sts, hs⟩ := hc.session
    cases hs.bound v id hfind with
    | leaf hleaf =>
      cases hleaf with
      | block _ _ _ _ _ names => exact ⟨_, hc.holds hroom names, rfl⟩
      | argument _ _ value' | constant _ _ _ _ value' | function _ _ _ _ value'
      | global _ _ _ value' => cases hv.symm.trans value'
    | result k i hi hvalue _ =>
      subst hvalue
      cases hv.symm.trans (value_of_inst J.linked hi)

/-! ## Copies -/

theorem materialize_total {d : OperandId} {od : Operand} (hd : s.Holds d od)
    (ho : s.Holds id o) (hacc : o.copyOp.accepts [od, o] = true) :
    Total S 0 s (materialize d id) fun _ _ => True := by
  refine .bind (n := 0) (m := 0) (Q := fun op t => op = o.copyOp ∧ t = s) ?_ ?_
  · exact .operand ho (.pure ⟨rfl, rfl⟩)
  · rintro op t - ⟨rfl, rfl⟩
    exact emit_total (.cons hd (.cons ho .nil)) hacc

theorem copyToVReg_total (ho : s.Holds id o) (hval : o.IsValue w) :
    Total S 1 s (copyToVReg id) fun id' t => ∃ o', t.Holds id' o' ∧ o'.InReg w := by
  refine .operand ho (.fresh fun d r t hf hd => ?_)
  refine (materialize_total hd (ho.later hf) (hval.accepts_copy rfl)).next
    fun _ u hf' _ => ?_
  exact .pure ⟨_, hd.later hf', hval.inRegister r⟩

theorem intoRegister_total (ho : s.Holds id o) (hval : o.IsValue w) :
    Total S 1 s (intoRegister id) fun id' t => ∃ o', t.Holds id' o' ∧ o'.InReg w := by
  refine .operand ho (.ite (fun hreg => ?_) fun _ => copyToVReg_total ho hval)
  exact .pure ⟨o, ho, hval.width, hreg⟩

/-- A value that does not need its address formed carries its value in itself. -/
theorem direct_of_value (hval : o.IsValue w) (haddr : ¬ o.needsAddress = true) :
    o.IsDirect w := by
  refine ⟨hval.width, ?_⟩
  rcases hval.form with hreg | himm | ⟨h, -⟩
  · exact .inl hreg
  · exact .inr himm
  · exact absurd h haddr

theorem valueOperand_total (hav : Available J s w v) :
    Total J 2 s (valueOperand v) fun id t => ∃ o, t.Holds id o ∧ o.IsDirect w := by
  refine (resolve_total hav).get fun id o t _ ho hval => ?_
  refine .operand ho (.ite (fun haddr => ?_) fun haddr => ?_)
  · have hst : o.storage = .ptr := by
      rcases hval.form with hreg | himm | ⟨-, hst⟩
      · rw [Machine.Operand.needsAddress_of_isRegister hreg] at haddr
        cases haddr
      · rw [(⟨rfl, .inr himm⟩ : o.IsDirect o.width).needsAddress] at haddr
        cases haddr
      · exact hst
    have hacc : ∀ r, Op.lea.accepts [⟨.virt r, .ptr⟩, o] = true := by
      intro r
      have hacc : o.copyOp.accepts [⟨.virt r, .ptr⟩, o] = true := hval.accepts_copy rfl
      rwa [Operand.copyOp, if_pos haddr] at hacc
    have hw : Storage.ptr.width = w := by
      rw [← hst]
      exact hval.width
    subst hw
    exact (Total.fill ho hacc).mono (Nat.le_refl _) fun _ _ _ hpost =>
      hpost.imp fun _ h => ⟨h.1, h.2.direct⟩
  · exact .pure ⟨o, ho, direct_of_value hval haddr⟩

theorem addressRegister_total (hav : Available J s w v) :
    Total J 3 s (addressRegister v) fun id t => ∃ o, t.Holds id o ∧ o.InReg w := by
  refine (valueOperand_total hav).get fun id o t _ ho hval => ?_
  exact intoRegister_total ho hval.value

theorem aluSource_total (ho : s.Holds id o) (hval : o.IsDirect w) :
    Total S 1 s (aluSource id) fun id' t => ∃ o', t.Holds id' o' ∧ o'.IsDirect w := by
  refine .operand ho (.ite (fun _ => ?_) fun _ => ?_)
  · exact (copyToVReg_total ho hval.value).mono (Nat.le_refl _)
      fun _ _ _ hpost => hpost.imp fun _ h => ⟨h.1, h.2.direct⟩
  · exact .pure ⟨o, ho, hval⟩

end InstSelect.Lowering
