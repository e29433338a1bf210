import InstSelect.Proofs.Runs

/-!
# Disciplines of selection

What a routine of selection does to the function being built is said of the state before
it and the state after it: its code is quiet, say, or tidy. Such a relation holds where
nothing changes, and of a first stretch and a second one together; a `Discipline` packs it
with the states from which it is claimed. `Along` then says of a step that its runs keep
the discipline, and what is known of its answer. A routine is followed step by step, with
one rule for each way of composing steps and one for steps that only read.
-/

namespace InstSelect.Lowering

open IR (ValueId)
open Machine (OperandId Op Allocator)

variable {α β : Type} {env : Env} {s s' : State} {e : Failure} {c : Prop}

/-! ## Failing steps -/

/-- Step `x`, started in `s`, fails and leaves `s'`. -/
def Fails {α : Type} (x : LowerM α) (env : Env) (s : State) (e : Failure) (s' : State) :
    Prop :=
  x env s = .error e s'

theorem fails_bind {x : LowerM α} {k : α → LowerM β} :
    Fails (x >>= k) env s e s' ↔
      Fails x env s e s' ∨ ∃ a t, Runs x env s a t ∧ Fails (k a) env t e s' := by
  simp only [Fails, Runs, bind, ReaderT.bind, EStateM.bind]
  cases h : x env s with
  | ok a t =>
    constructor
    · intro hk
      exact .inr ⟨a, t, rfl, hk⟩
    · rintro (h | ⟨a', t', h, hk⟩)
      · cases h
      · cases h
        exact hk
  | error e' t => simp

theorem fails_map {x : LowerM α} {f : α → β} :
    Fails (f <$> x) env s e s' ↔ Fails x env s e s' := by
  simp only [Fails, Functor.map, EStateM.map]
  cases x env s with
  | ok a t => simp
  | error e' t => simp

/-- A step that leaves the state as it was if it fails. -/
def Clean {α : Type} (x : LowerM α) : Prop := ∀ env s e s', Fails x env s e s' → s' = s

/-- A step that never changes the state. -/
structure Inert {α : Type} (x : LowerM α) : Prop where
  clean : Clean x
  kept : ∀ env s a s', Runs x env s a s' → s' = s

section Failing

variable {α β : Type} {x : LowerM α} {k : α → LowerM β}

/-- A step without failures. -/
theorem Clean.of_total (h : ∀ env s e s', ¬ Fails x env s e s') : Clean x :=
  fun env s e s' hfail => absurd hfail (h env s e s')

theorem Clean.check (e : Except Failure α) : Clean (check e) := by
  intro env s f s' h
  cases e with
  | ok a => cases h
  | error f' =>
    cases h
    rfl

/-- Reading before a step does not matter. -/
theorem Clean.after (hx : Inert x) (hk : ∀ a, Clean (k a)) : Clean (x >>= k) := by
  intro env s e s' h
  rcases fails_bind.mp h with h | ⟨a, t, hrun, h⟩
  · exact hx.clean env s e s' h
  · rw [hk a env t e s' h, hx.kept env s a t hrun]

namespace Inert

theorem pure (a : α) : Inert (pure a) :=
  ⟨.of_total (fun _ _ _ _ h => by cases h), fun _ _ _ _ h => (runs_pure.mp h).2.symm⟩

theorem check (e : Except Failure α) : Inert (check e) :=
  ⟨.check e, fun _ _ _ _ h => (runs_check.mp h).2.symm⟩

theorem get : Inert get :=
  ⟨.of_total (fun _ _ _ _ h => by cases h), fun _ _ _ _ h => (runs_get.mp h).2.symm⟩

theorem sourceModule : Inert sourceModule :=
  ⟨.of_total (fun _ _ _ _ h => by cases h),
    fun _ _ _ _ h => (runs_sourceModule.mp h).2.symm⟩

theorem theAbi : Inert theAbi :=
  ⟨.of_total (fun _ _ _ _ h => by cases h), fun _ _ _ _ h => (runs_theAbi.mp h).2.symm⟩

theorem theAllocator : Inert theAllocator :=
  ⟨.of_total (fun _ _ _ _ h => by cases h),
    fun _ _ _ _ h => (runs_theAllocator.mp h).2.symm⟩

theorem bind (hx : Inert x) (hk : ∀ a, Inert (k a)) : Inert (x >>= k) := by
  refine ⟨.after hx fun a => (hk a).clean, fun env s b s' h => ?_⟩
  obtain ⟨a, t, ha, hb⟩ := runs_bind.mp h
  rw [(hk a).kept env t b s' hb, hx.kept env s a t ha]

theorem current : Inert current := by
  refine get.bind fun s => ?_
  cases s.current with
  | some c => exact .pure c
  | none => exact .check _

theorem machine : Inert machine := current.bind fun _ => .pure _

theorem violateIn {broken : String → Violation} : Inert (violateIn broken : LowerM α) :=
  machine.bind fun _ => .check _

theorem operand (id : OperandId) : Inert (operand id) := machine.bind fun _ => .check _

theorem storage (id : OperandId) : Inert (storage id) :=
  (operand id).bind fun _ => .pure _

theorem isSigned (v : ValueId) : Inert (isSigned v) :=
  sourceModule.bind fun _ => (check _).bind fun _ => .pure _

theorem regOf (id : OperandId) : Inert (regOf id) := machine.bind fun _ => .check _

theorem lookupValue (v : ValueId) : Inert (lookupValue v) := get.bind fun _ => .pure _

theorem insertionBlock : Inert insertionBlock := by
  refine get.bind fun s => ?_
  split
  · exact .pure _
  · exact .violateIn

theorem argumentOperand (v : ValueId) (func : IR.FuncId) (index : UInt32) :
    Inert (argumentOperand v func index) := by
  refine get.bind fun s => ?_
  split
  · split
    · split
      · exact .pure _
      · exact .violateIn
    · exact .violateIn
  · exact .violateIn

end Inert

namespace Clean

/-- An operation on the function being built that fails changes nothing. -/
theorem build
    {operation : [Allocator] → Machine.Function → Except Failure (α × Machine.Function)} :
    Clean (build operation) :=
  .after .current fun _ => .after .theAllocator fun _ => .after (.check _) fun _ =>
    .of_total fun _ _ _ _ h => by cases h

theorem change
    {operation : [Allocator] → Machine.Function → Except Failure Machine.Function} :
    Clean (change operation) := build

theorem emit (op : Op) (ids : List OperandId) : Clean (emit op ids) :=
  .after .insertionBlock fun _ => change

theorem bindValue (v : ValueId) (id : OperandId) : Clean (bindValue v id) := by
  refine .after (.lookupValue v) fun found => ?_
  cases found with
  | none => exact .of_total fun _ _ _ _ h => by cases h
  | some _ => exact Inert.violateIn.clean

theorem blockFor (b : IR.BlockId) : Clean (blockFor b) := by
  refine .after .get fun s => ?_
  split
  · exact (Inert.pure _).clean
  · refine .after .sourceModule fun m => .after (.check _) fun data =>
      .after .get fun s => ?_
    split
    · split
      · -- Only creating the block can fail, and not recording it.
        intro env s e s' h
        rcases fails_bind.mp h with h | ⟨a, t, -, h⟩
        · exact build env s e s' h
        · cases h
      · exact Inert.violateIn.clean
    · exact Inert.violateIn.clean

end Clean

end Failing

/-! ## Disciplines -/

/--
A relation between earlier and later states that composes, claimed from some states on.
-/
structure Discipline (env : Env) where
  Starts : State → Prop
  Leads : State → State → Prop
  refl (s : State) : Leads s s
  trans {s t u : State} (first : Leads s t) (second : Leads t u) : Leads s u
  goesOn {s t : State} (start : Starts s) (first : Leads s t) : Starts t

/-- From `s` on, the runs of a step keep a discipline, and its answers have a property. -/
def Along {α : Type} {env : Env} (D : Discipline env) (s : State) (x : LowerM α)
    (Q : α → State → Prop) : Prop :=
  D.Starts s → ∀ ⦃a t⦄, Runs x env s a t → D.Leads s t ∧ Q a t

namespace Along

variable {α β : Type} {env : Env} {D : Discipline env} {s : State} {x y : LowerM α}
  {k : α → LowerM β} {Q Q' : α → State → Prop} {R : β → State → Prop}

theorem pure {a : α} (h : Q a s) : Along D s (pure a) Q := by
  rintro - b t hrun
  obtain ⟨rfl, rfl⟩ := runs_pure.mp hrun
  exact ⟨D.refl s, h⟩

theorem bind (hx : Along D s x Q) (hk : ∀ a t, D.Leads s t → Q a t → Along D t (k a) R) :
    Along D s (x >>= k) R := by
  intro hs b u hrun
  obtain ⟨a, t, hx', hk'⟩ := runs_bind.mp hrun
  obtain ⟨hlead, hQ⟩ := hx hs hx'
  obtain ⟨hlead', hR⟩ := hk a t hlead hQ (D.goesOn hs hlead) hk'
  exact ⟨D.trans hlead hlead', hR⟩

theorem imp (hx : Along D s x Q) (h : ∀ a t, D.Leads s t → Q a t → Q' a t) :
    Along D s x Q' := by
  intro hs a t hrun
  obtain ⟨hlead, hQ⟩ := hx hs hrun
  exact ⟨hlead, h a t hlead hQ⟩

theorem ite [Decidable c] (hx : c → Along D s x Q) (hy : ¬ c → Along D s y Q) :
    Along D s (if c then x else y) Q := by
  split
  · next h => exact hx h
  · next h => exact hy h

/-- A choice followed by the same continuation on both sides. -/
theorem ite_bind [Decidable c] (h : Along D s ((if c then x else y) >>= k) R) :
    Along D s (if c then x >>= k else y >>= k) R :=
  fun hs _ _ hrun => h hs (runs_ite_bind.mp hrun)

theorem read (hx : Inert x) (hk : ∀ a, Runs x env s a s → Along D s (k a) R) :
    Along D s (x >>= k) R := by
  intro hs b u hrun
  obtain ⟨a, t, hx', hk'⟩ := runs_bind.mp hrun
  obtain rfl := hx.kept env s a t hx'
  exact hk a hx' hs hk'

theorem check {e : Except Failure α} (hk : ∀ a, e = .ok a → Along D s (k a) R) :
    Along D s (check e >>= k) R :=
  read (.check e) fun a hrun => hk a (runs_check.mp hrun).1

theorem checkWord {e : Except Overflow α} (hk : ∀ a, e = .ok a → Along D s (k a) R) :
    Along D s (checkWord e >>= k) R :=
  check fun a ha => hk a (ofWord_eq_ok.mp ha)

/-- A step that never succeeds. -/
theorem refuse {f : Failure} : Along D s (Lowering.check (.error f)) Q := by
  rintro - a t hrun
  cases (runs_check.mp hrun).1

end Along

end InstSelect.Lowering
