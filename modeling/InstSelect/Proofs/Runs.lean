import Mathlib.Algebra.Order.Ring.Nat
import InstSelect.Lowering.Module

/-!
# Successful runs of a session

A step of a session either fails or returns a result and the state it leaves.
`Runs x env s a s'` says that `x` returned `a` and left `s'`. Everything the later modules
say about selection is said about successful runs, so this relation is opened once here:
one equivalence for each way of composing steps and one for each elementary step. A
routine is then taken apart by rewriting with these equivalences, and put together again,
where its success is the question, by the same ones read from right to left.
-/

namespace InstSelect.Lowering

open Machine (Storage Operand OperandId Reg Allocator)

/-- Step `x`, started in `s`, returns `a` and leaves `s'`. -/
def Runs {α : Type} (x : LowerM α) (env : Env) (s : State) (a : α) (s' : State) : Prop :=
  x env s = .ok a s'

variable {α β ε : Type} {env : Env} {s s' t : State} {u : Unit} {id : OperandId}
  {broken : Violation} {f : Machine.Function} {b : Machine.BlockId} {o : Operand}

/-- A step has at most one outcome. -/
theorem Runs.unique {x : LowerM α} {a b : α} (h : Runs x env s a s')
    (h' : Runs x env s b t) : a = b ∧ s' = t := by
  unfold Runs at h h'
  rw [h] at h'
  cases h'
  exact ⟨rfl, rfl⟩

/-- Whether a step succeeds, and leaves a state as tested. -/
def leaves (x : LowerM α) (env : Env) (s : State) (test : α → State → Bool) : Bool :=
  match x env s with
  | .ok a s' => test a s'
  | .error _ _ => false

theorem runs_of_leaves {x : LowerM α} {test : α → State → Bool}
    (h : leaves x env s test = true) :
    ∃ a s', Runs x env s a s' ∧ test a s' = true := by
  unfold leaves at h
  split at h
  · next a s' hx => exact ⟨a, s', hx, h⟩
  · cases h

/-! ## Checks outside a session -/

theorem bind_eq_ok {x : Except ε α} {f : α → Except ε β} {b : β} :
    x >>= f = .ok b ↔ ∃ a, x = .ok a ∧ f a = .ok b := by
  cases x with
  | error e => simp [bind, Except.bind]
  | ok a => simp [bind, Except.bind]

theorem toOption_eq_some {x : Except ε α} {a : α} : x.toOption = some a ↔ x = .ok a := by
  cases x <;> simp [Except.toOption]

theorem bind_eq_error {x : Except ε α} {f : α → Except ε β} {e : ε} :
    x >>= f = .error e ↔ x = .error e ∨ ∃ a, x = .ok a ∧ f a = .error e := by
  cases x with
  | error e' => simp [bind, Except.bind]
  | ok a => simp [bind, Except.bind]

/-- Whether a check succeeds with a result as tested. -/
def yields {ε : Type} (x : Except ε α) (test : α → Bool) : Bool :=
  match x with
  | .ok a => test a
  | .error _ => false

theorem exists_of_yields {x : Except ε α} {test : α → Bool} (h : yields x test = true) :
    ∃ a, x = .ok a ∧ test a = true := by
  cases x with
  | ok a => exact ⟨a, rfl, h⟩
  | error e => cases h

@[simp]
theorem pure_eq_ok {a b : α} : (pure a : Except ε α) = .ok b ↔ a = b := by
  simp [pure, Except.pure]

@[simp]
theorem violate_ne_ok {a : α} : ¬ violate broken = .ok a := by
  simp [violate]

@[simp]
theorem require_eq_ok {condition : Bool} :
    require condition broken = .ok u ↔ condition = true := by
  unfold require
  cases condition <;> simp

theorem ask_eq_ok {alloc : Machine.Allocator} {request : Machine.Request} :
    Machine.Allocator.ask request = .ok u ↔ alloc.refusal? request = none := by
  unfold Machine.Allocator.ask
  cases alloc.refusal? request <;> simp

@[simp]
theorem ofWord_eq_ok {e : Except Overflow α} {a : α} :
    Failure.ofWord e = .ok a ↔ e = .ok a := by
  cases e <;> simp [Failure.ofWord]

/-! ## Composition -/

@[simp]
theorem runs_pure {a b : α} : Runs (pure a) env s b s' ↔ a = b ∧ s = s' := by
  show EStateM.Result.ok a s = .ok b s' ↔ _
  simp

theorem runs_bind {x : LowerM α} {f : α → LowerM β} {b : β} :
    Runs (x >>= f) env s b s' ↔ ∃ a t, Runs x env s a t ∧ Runs (f a) env t b s' := by
  simp only [Runs, bind, ReaderT.bind, EStateM.bind]
  cases h : x env s with
  | ok a t =>
    constructor
    · intro hf
      exact ⟨a, t, rfl, hf⟩
    · rintro ⟨a', t', hx, hf⟩
      cases hx
      exact hf
  | error e t => simp

/-- A choice followed by the same continuation on both sides. -/
theorem runs_ite_bind {p : Prop} [Decidable p] {x y : LowerM α} {f : α → LowerM β}
    {b : β} :
    Runs (if p then x >>= f else y >>= f) env s b s' ↔
      Runs ((if p then x else y) >>= f) env s b s' := by
  split <;> rfl

theorem runs_map {x : LowerM α} {f : α → β} {b : β} :
    Runs (f <$> x) env s b s' ↔ ∃ a, Runs x env s a s' ∧ f a = b := by
  simp only [Runs, Functor.map, EStateM.map]
  cases h : x env s with
  | ok a t =>
    constructor
    · intro hb
      cases hb
      exact ⟨a, rfl, rfl⟩
    · rintro ⟨a', ha, rfl⟩
      cases ha
      rfl
  | error e t => simp

@[simp]
theorem runs_check {e : Except Failure α} {a : α} :
    Runs (check e) env s a s' ↔ e = .ok a ∧ s = s' := by
  cases e with
  | ok b => rw [check, runs_pure, Except.ok.injEq]
  | error f =>
    constructor
    · intro h
      cases h
    · rintro ⟨h, -⟩
      cases h

@[simp]
theorem runs_checkWord {e : Except Overflow α} {a : α} :
    Runs (checkWord e) env s a s' ↔ e = .ok a ∧ s = s' := by
  rw [checkWord, runs_check, ofWord_eq_ok]

@[simp]
theorem runs_get : Runs get env s t s' ↔ s = t ∧ s = s' := by
  show EStateM.Result.ok s s = .ok t s' ↔ _
  simp

@[simp]
theorem runs_modify {f : State → State} : Runs (modify f) env s u s' ↔ s' = f s := by
  show EStateM.Result.ok () (f s) = .ok u s' ↔ _
  simp [eq_comm]

@[simp]
theorem runs_sourceModule {m : IR.Module} :
    Runs sourceModule env s m s' ↔ env.module = m ∧ s = s' := by
  show EStateM.Result.ok env.module s = .ok m s' ↔ _
  simp

@[simp]
theorem runs_theAbi {abi : Abi} : Runs theAbi env s abi s' ↔ env.abi = abi ∧ s = s' := by
  show EStateM.Result.ok env.abi s = .ok abi s' ↔ _
  simp

@[simp]
theorem runs_theAllocator {alloc : Allocator} :
    Runs theAllocator env s alloc s' ↔ env.allocator = alloc ∧ s = s' := by
  show EStateM.Result.ok env.allocator s = .ok alloc s' ↔ _
  simp

@[simp]
theorem runs_read {e : Env} : Runs read env s e s' ↔ env = e ∧ s = s' := by
  show EStateM.Result.ok env s = .ok e s' ↔ _
  simp

/-! ## Loops -/

@[simp]
theorem runs_forM_nil {f : α → LowerM Unit} : Runs (([] : List α).forM f) env s u s' ↔
    s = s' := by
  rw [List.forM, runs_pure]
  simp

theorem runs_forM_cons {f : α → LowerM Unit} {a : α} {rest : List α} :
    Runs ((a :: rest).forM f) env s u s' ↔
      ∃ t, Runs (f a) env s () t ∧ Runs (rest.forM f) env t u s' := by
  rw [List.forM, runs_bind]
  exact ⟨fun ⟨_, t, h⟩ => ⟨t, h⟩, fun ⟨t, h⟩ => ⟨(), t, h⟩⟩

@[simp]
theorem runs_foldlM_nil {f : β → α → LowerM β} {b b' : β} :
    Runs (([] : List α).foldlM f b) env s b' s' ↔ b = b' ∧ s = s' := by
  rw [List.foldlM_nil, runs_pure]

theorem runs_foldlM_cons {f : β → α → LowerM β} {a : α} {rest : List α} {b b' : β} :
    Runs ((a :: rest).foldlM f b) env s b' s' ↔
      ∃ c t, Runs (f b a) env s c t ∧ Runs (rest.foldlM f c) env t b' s' := by
  rw [List.foldlM_cons, runs_bind]

@[simp]
theorem runs_mapM_nil {f : α → LowerM β} {bs : List β} :
    Runs (([] : List α).mapM f) env s bs s' ↔ [] = bs ∧ s = s' := by
  rw [List.mapM_nil, runs_pure]

theorem runs_mapM_cons {f : α → LowerM β} {a : α} {rest : List α} {bs : List β} :
    Runs ((a :: rest).mapM f) env s bs s' ↔
      ∃ b t cs, Runs (f a) env s b t ∧ Runs (rest.mapM f) env t cs s' ∧ bs = b :: cs := by
  rw [List.mapM_cons, runs_bind]
  simp only [runs_bind, runs_pure]
  constructor
  · rintro ⟨b, t, hb, cs, _, hcs, rfl, rfl⟩
    exact ⟨b, t, cs, hb, hcs, rfl⟩
  · rintro ⟨b, t, cs, hb, hcs, rfl⟩
    exact ⟨b, t, hb, cs, s', hcs, rfl, rfl⟩

/-! ## The function being built -/

namespace State

/-- The state in which the function being built has become `f`. -/
def withMachine (s : State) (c : Current) (f : Machine.Function) : State :=
  { s with current := some { c with machine := f } }

@[simp]
theorem withMachine_current (s : State) (c : Current) (f : Machine.Function) :
    (s.withMachine c f).current = some { c with machine := f } := rfl

@[simp]
theorem withMachine_values (s : State) (c : Current) (f : Machine.Function) :
    (s.withMachine c f).values = s.values := rfl

@[simp]
theorem withMachine_blocks (s : State) (c : Current) (f : Machine.Function) :
    (s.withMachine c f).blocks = s.blocks := rfl

@[simp]
theorem withMachine_pendingPhis (s : State) (c : Current) (f : Machine.Function) :
    (s.withMachine c f).pendingPhis = s.pendingPhis := rfl

end State

@[simp]
theorem runs_current {c : Current} :
    Runs current env s c s' ↔ s.current = some c ∧ s = s' := by
  simp only [current, runs_bind, runs_get]
  cases hs : s.current with
  | some d =>
    constructor
    · rintro ⟨t, u, ⟨rfl, rfl⟩, h⟩
      rw [hs, runs_pure] at h
      exact ⟨by rw [h.1], h.2⟩
    · rintro ⟨h, rfl⟩
      refine ⟨s, s, ⟨rfl, rfl⟩, ?_⟩
      rw [hs, runs_pure]
      exact ⟨Option.some.inj h, rfl⟩
  | none =>
    constructor
    · rintro ⟨t, u, ⟨rfl, rfl⟩, h⟩
      rw [hs, runs_check] at h
      cases h.1
    · rintro ⟨h, -⟩
      cases h

@[simp]
theorem runs_machine :
    Runs machine env s f s' ↔ ∃ c, s.current = some c ∧ c.machine = f ∧ s = s' := by
  simp only [machine, runs_bind, runs_current, runs_pure]
  constructor
  · rintro ⟨c, t, ⟨hc, rfl⟩, rfl, rfl⟩
    exact ⟨c, hc, rfl, rfl⟩
  · rintro ⟨c, hc, rfl, rfl⟩
    exact ⟨c, s, ⟨hc, rfl⟩, rfl, rfl⟩

/-- Breaking off is not a success. -/
@[simp]
theorem not_runs_violateIn {broken : String → Violation} {a : α} :
    ¬ Runs (violateIn broken) env s a s' := by
  simp [violateIn, runs_bind, violate]

theorem runs_build
    {operation : [Allocator] → Machine.Function → Except Failure (α × Machine.Function)}
    {a : α} :
    Runs (build operation) env s a s' ↔
      ∃ c f, s.current = some c ∧ @operation env.allocator c.machine = .ok (a, f) ∧
        s' = s.withMachine c f := by
  simp only [build, runs_bind, runs_current, runs_theAllocator, runs_check, runs_modify,
    runs_pure]
  constructor
  · rintro ⟨c, _, ⟨hc, rfl⟩, _, _, ⟨rfl, rfl⟩, ⟨a', f⟩, _, ⟨hop, rfl⟩, _, _, rfl,
      rfl, rfl⟩
    exact ⟨c, f, hc, hop, rfl⟩
  · rintro ⟨c, f, hc, hop, rfl⟩
    exact ⟨c, s, ⟨hc, rfl⟩, _, s, ⟨rfl, rfl⟩, (a, f), s, ⟨hop, rfl⟩, (), _, rfl, rfl, rfl⟩

theorem runs_change
    {operation : [Allocator] → Machine.Function → Except Failure Machine.Function} :
    Runs (change operation) env s u s' ↔
      ∃ c f, s.current = some c ∧ @operation env.allocator c.machine = .ok f ∧
        s' = s.withMachine c f := by
  rw [change, runs_build]
  constructor
  · rintro ⟨c, f, hc, hop, rfl⟩
    obtain ⟨g, hg, hpure⟩ := bind_eq_ok.mp hop
    cases hpure
    exact ⟨c, f, hc, hg, rfl⟩
  · rintro ⟨c, f, hc, hop, rfl⟩
    exact ⟨c, f, hc, bind_eq_ok.mpr ⟨f, hop, rfl⟩, rfl⟩

@[simp]
theorem runs_insertionBlock :
    Runs insertionBlock env s b s' ↔
      ∃ c, s.current = some c ∧ c.block = some b ∧ s = s' := by
  simp only [insertionBlock, runs_bind, runs_get]
  constructor
  · rintro ⟨t, u, ⟨rfl, rfl⟩, h⟩
    split at h
    · next b' _ =>
      rw [runs_pure] at h
      obtain ⟨rfl, rfl⟩ := h
      exact ⟨_, rfl, rfl, rfl⟩
    · exact absurd h not_runs_violateIn
  · rintro ⟨⟨source, f, block⟩, hc, hb, rfl⟩
    obtain ⟨output, functions, blocks, values, pending, cur⟩ := s
    cases hc
    cases hb
    exact ⟨_, _, ⟨rfl, rfl⟩, runs_pure.mpr ⟨rfl, rfl⟩⟩

theorem runs_setInsertionBlock :
    Runs (setInsertionBlock b) env s u s' ↔
      s' = { s with current := s.current.map ({ · with block := some b }) } := by
  rw [setInsertionBlock, runs_modify]

/-! ## Operands of the function being built -/

theorem operand_eq_ok :
    f.operand id = .ok o ↔ f.operands[id.index.toNat]? = some o := by
  unfold Machine.Function.operand
  cases f.operands[id.index.toNat]? with
  | none => simp [violate]
  | some p => simp

@[simp]
theorem runs_operand :
    Runs (operand id) env s o s' ↔
      ∃ c, s.current = some c ∧ c.machine.operands[id.index.toNat]? = some o ∧
        s = s' := by
  simp only [operand, runs_bind, runs_machine, runs_check, operand_eq_ok]
  constructor
  · rintro ⟨f, t, ⟨c, hc, rfl, rfl⟩, ho, rfl⟩
    exact ⟨c, hc, ho, rfl⟩
  · rintro ⟨c, hc, ho, rfl⟩
    exact ⟨c.machine, s, ⟨c, hc, rfl, rfl⟩, ho, rfl⟩

@[simp]
theorem runs_storage {st : Storage} :
    Runs (storage id) env s st s' ↔
      ∃ o, Runs (operand id) env s o s' ∧ o.storage = st := by
  simp only [storage, runs_bind, runs_pure]
  constructor
  · rintro ⟨o, t, ho, rfl, rfl⟩
    exact ⟨o, ho, rfl⟩
  · rintro ⟨o, ho, rfl⟩
    exact ⟨o, s', ho, rfl, rfl⟩

@[simp]
theorem runs_regOf {r : Reg} :
    Runs (regOf id) env s r s' ↔
      ∃ o, Runs (operand id) env s o s' ∧ o.reg? = some r := by
  simp only [regOf, runs_bind, runs_machine, runs_check, runs_operand]
  constructor
  · rintro ⟨f, t, ⟨c, hc, rfl, rfl⟩, hr, rfl⟩
    obtain ⟨o, ho, hreg⟩ := bind_eq_ok.mp hr
    refine ⟨o, ⟨c, hc, operand_eq_ok.mp ho, rfl⟩, ?_⟩
    cases hreg' : o.reg? with
    | none => simp [hreg'] at hreg
    | some r' => simpa [hreg'] using hreg
  · rintro ⟨o, ⟨c, hc, ho, rfl⟩, hr⟩
    refine ⟨c.machine, s, ⟨c, hc, rfl, rfl⟩,
      bind_eq_ok.mpr ⟨o, operand_eq_ok.mpr ho, ?_⟩, rfl⟩
    rw [hr]
    rfl

end InstSelect.Lowering
