import Mathlib.Data.List.Induction
import InstSelect.Proofs.WholeModules

/-!
# Sessions change their output one item at a time

A session answers calls in any order, and goes on after a call that failed. Each call is
made with an allocator of its own, which may refuse memory anywhere in it. `Effect` says
once what a call can do to the program and to the map of lowered functions: a global or a
function is added in one step at the very end of a call that succeeds, and all that comes
before keeps away from both. So the program only grows, a failure leaves nothing behind,
and the map knows for every function what came out of the last time that it was lowered.
-/

namespace InstSelect.Lowering

open Machine (OperandId Image Program Allocator)

variable {α : Type} {r : Option Machine.FuncId}

/-! ## Calls -/

/-- The calls that a session answers. -/
inductive Call
  | beginFunction (func : IR.FuncId)
  | resolve (value : IR.ValueId)
  | lowerFunction (func : IR.FuncId)
  | lowerGlobal (global : IR.GlobalId)

/-- What a call that succeeds answers. -/
inductive Reply
  | begun
  | resolved (id : OperandId)
  | lowered (id : Option Machine.FuncId)
  | imaged

def Call.run : Call → LowerM Reply
  | beginFunction func => (fun _ => .begun) <$> Lowering.beginFunction func
  | resolve value => .resolved <$> Lowering.resolve value
  | lowerFunction func => .lowered <$> Lowering.lowerFunction func
  | lowerGlobal global => (fun _ => .imaged) <$> Lowering.lowerGlobal global

/-- The state that a step leaves, whether or not it succeeds. -/
def Outcome.state {α : Type} : Outcome α → State
  | .ok _ s => s
  | .error _ s => s

/-- The same module and conventions, with another allocator. -/
def Env.under (env : Env) (alloc : Allocator) : Env := { env with allocator := alloc }

/-- A call, and the allocator that it finds. -/
structure Turn where
  call : Call
  allocator : Allocator

/-- Answers the call of a turn. -/
def Turn.run (env : Env) (turn : Turn) (s : State) : Outcome Reply :=
  turn.call.run (env.under turn.allocator) s

/-- The session after some more turns. -/
def State.after (env : Env) (s : State) (turns : List Turn) : State :=
  turns.foldl (fun s turn => Outcome.state (turn.run env s)) s

/-- The session after some turns. -/
def session (env : Env) (turns : List Turn) : State :=
  (State.initial env.module.name).after env turns

/-! ## What one call can do -/

/-- The same program, and the same answers for lowered functions. -/
structure State.Same (s t : State) : Prop where
  functions : t.output.functions = s.output.functions
  globals : t.output.globals = s.output.globals
  lowered : ∀ func, t.functions.find? func = s.functions.find? func

/-- What a call in state `s` can end in. -/
inductive Effect (mod : IR.Module) (s : State) : Call → Outcome Reply → Prop
  | failed {call : Call} {e : Failure} {t : State} (same : s.Same t) :
      Effect mod s call (.error e t)
  | begun {func : IR.FuncId} {t : State} (same : s.Same t) :
      Effect mod s (.beginFunction func) (.ok .begun t)
  | resolved {value : IR.ValueId} {id : OperandId} {t : State} (same : s.Same t) :
      Effect mod s (.resolve value) (.ok (.resolved id) t)
  | skipped {func : IR.FuncId} :
      Effect mod s (.lowerFunction func) (.ok (.lowered none) s)
  | lowered {func : IR.FuncId} {f : IR.Function} {m : Machine.Function} {rest : State}
      (source : mod.function func = .ok f) (name : m.name = f.name)
      (isSealed : m.isSealed = true) :
      Effect mod s (.lowerFunction func)
        (.ok (.lowered (some s.nextFunction)) (s.joined func m rest))
  | imaged {global : IR.GlobalId} {g : IR.Global} {image : Image}
      (source : mod.global global = .ok g) (name : image.name = g.name) :
      Effect mod s (.lowerGlobal global)
        (.ok .imaged { s with output := s.output.pushGlobal image })

section

variable {env : Env} {s t : State} {func : IR.FuncId} {f : IR.Function} {call : Call}
  {turn : Turn} {id : Machine.FuncId} {turns before : List Turn}

theorem State.Same.refl (s : State) : s.Same s := ⟨rfl, rfl, fun _ => rfl⟩

/-- A step that keeps away from the program leaves it, however it ends. -/
theorem Local.same {x : LowerM α} (hx : Local x) (env : Env) (s : State) :
    s.Same (Outcome.state (x env s)) := by
  have h : x env s = Outcome.over (x env s) s.output s.functions :=
    hx env s s.output s.functions
  rw [h]
  cases x env s with
  | ok a t | error e t => exact ⟨rfl, rfl, fun _ => rfl⟩

theorem lowerGlobal_eq (global : IR.GlobalId) (env : Env) (s : State) :
    lowerGlobal global env s =
      match env.module.global global >>= fun g =>
        @imageOf env.allocator env.module env.abi g >>=
          @Program.finishGlobal env.allocator s.output with
      | .ok output => .ok () { s with output }
      | .error e => .error e s := by
  show (check (env.module.global global) >>= fun g =>
    check (@imageOf env.allocator env.module env.abi g) >>= _ : LowerM _) env s = _
  cases env.module.global global with
  | error e => rfl
  | ok g =>
    show (check (@imageOf env.allocator env.module env.abi g) >>= _ : LowerM _) env s =
      match (@imageOf env.allocator env.module env.abi g >>= _ :
        Except Failure Program) with
      | .ok output => _
      | .error e => _
    cases @imageOf env.allocator env.module env.abi g with
    | error e => rfl
    | ok image =>
      show (check (@Program.finishGlobal env.allocator s.output image) >>= _ : LowerM _)
        env s =
        match @Program.finishGlobal env.allocator s.output image with
        | .ok output => _
        | .error e => _
      cases @Program.finishGlobal env.allocator s.output image with
      | error e => rfl
      | ok output => rfl

/--
A call that keeps away from the program has no effect on it, given what its success looks
like.
-/
theorem Local.effect {x : LowerM α} {reply : α → Reply} (hx : Local x)
    (hcall : call.run = reply <$> x)
    (hok : ∀ a t, s.Same t → Effect env.module s call (.ok (reply a) t)) :
    Effect env.module s call (call.run env s) := by
  have hsame := hx.same env s
  rw [hcall]
  simp only [Functor.map, EStateM.map]
  cases hrun : x env s with
  | ok a t =>
    rw [hrun] at hsame
    exact hok a t hsame
  | error e t =>
    rw [hrun] at hsame
    exact .failed hsame

theorem effect_lowerFunction (env : Env) (s : State) (func : IR.FuncId) :
    Effect env.module s (.lowerFunction func) ((Call.lowerFunction func).run env s) := by
  show Effect env.module s _ ((Reply.lowered <$> lowerFunction func : LowerM Reply) env s)
  simp only [Functor.map, EStateM.map]
  cases hf : env.module.function func with
  | error e =>
    rw [lowerFunction_of_missing hf]
    exact .failed (.refl s)
  | ok f =>
    cases hname : env.abi.isIntrinsic f.name with
    | true =>
      rw [lowerFunction_of_intrinsic hf hname]
      exact .skipped
    | false =>
      rw [lowerFunction_by_fill hf hname s s]
      cases hfill : fillFunction func f env s with
      | ok m rest =>
        cases env.allocator.refusal? .function with
        | some cause => exact .failed ⟨rfl, rfl, fun _ => rfl⟩
        | none =>
          have hemits : Emits env f m := ⟨func, s, rest, hf, hfill⟩
          exact .lowered hf hemits.heads.name (isSealed_of_fillFunction hfill)
      | error e rest => exact .failed ⟨rfl, rfl, fun _ => rfl⟩

theorem effect_lowerGlobal (env : Env) (s : State) (global : IR.GlobalId) :
    Effect env.module s (.lowerGlobal global) ((Call.lowerGlobal global).run env s) := by
  show Effect env.module s _
    (((fun _ => Reply.imaged) <$> lowerGlobal global : LowerM Reply) env s)
  simp only [Functor.map, EStateM.map, lowerGlobal_eq]
  cases hrun : env.module.global global >>= fun g =>
      @imageOf env.allocator env.module env.abi g >>=
        @Program.finishGlobal env.allocator s.output with
  | error e => exact .failed (.refl s)
  | ok output =>
    simp only [Program.finishGlobal, bind_eq_ok, ask_eq_ok, pure_eq_ok] at hrun
    obtain ⟨g, hg, image, himage, -, -, rfl⟩ := hrun
    exact .imaged hg (imageOf_name himage)

/-- Every call has one of the effects. -/
theorem Call.effect (env : Env) (s : State) :
    ∀ call : Call, Effect env.module s call (call.run env s)
  | beginFunction func => (beginFunction_local func).effect rfl fun _ _ => .begun
  | resolve value => (resolve_local value).effect rfl fun _ _ => .resolved
  | lowerFunction func => effect_lowerFunction env s func
  | lowerGlobal global => effect_lowerGlobal env s global

theorem Turn.effect (env : Env) (s : State) (turn : Turn) :
    Effect env.module s turn.call (turn.run env s) :=
  Call.effect (env.under turn.allocator) s turn.call

/-! ## Growth -/

/-- Both lists of the program grow at the end. -/
def State.Grows (s t : State) : Prop :=
  s.output.functions <+: t.output.functions ∧ s.output.globals <+: t.output.globals

theorem State.Same.grows (h : s.Same t) : s.Grows t := by
  simp only [State.Grows, h.functions, h.globals, List.prefix_refl, and_self]

theorem Effect.grows {r : Outcome Reply} (h : Effect env.module s call r) :
    s.Grows (Outcome.state r) := by
  cases h with
  | failed same | begun same | resolved same => exact same.grows
  | skipped => exact (State.Same.refl s).grows
  | lowered => exact ⟨List.prefix_append _ _, List.prefix_refl _⟩
  | imaged => exact ⟨List.prefix_refl _, List.prefix_append _ _⟩

theorem State.grows_after (env : Env) (s : State) (turns : List Turn) :
    s.Grows (s.after env turns) := by
  induction turns generalizing s with
  | nil => exact (State.Same.refl s).grows
  | cons turn rest ih =>
    have hfirst := (turn.effect env s).grows
    have hrest := ih (Outcome.state (turn.run env s))
    exact ⟨hfirst.1.trans hrest.1, hfirst.2.trans hrest.2⟩

theorem session_append (env : Env) (past future : List Turn) :
    session env (past ++ future) = (session env past).after env future :=
  List.foldl_append

/-! ## The map of lowered functions -/

/-- After some turns, a function is lowered and gets an id. -/
def LowersTo (env : Env) (turns : List Turn) (alloc : Allocator) (func : IR.FuncId)
    (id : Machine.FuncId) : Prop :=
  ∃ t, Runs (lowerFunction func) (env.under alloc) (session env turns) (some id) t

/--
The last of the turns that lowers a function comes after the turns `before`, and gives an
id.
-/
def LastLowering (env : Env) (turns : List Turn) (func : IR.FuncId) (before : List Turn)
    (id : Machine.FuncId) : Prop :=
  ∃ alloc, LowersTo env before alloc func id ∧
    ∃ later, turns = before ++ ⟨.lowerFunction func, alloc⟩ :: later ∧
      ∀ mid alloc' rest, later = mid ++ ⟨.lowerFunction func, alloc'⟩ :: rest →
        ∀ id', ¬LowersTo env (before ++ ⟨.lowerFunction func, alloc⟩ :: mid)
          alloc' func id'

theorem run_lowerFunction :
    (Call.lowerFunction func).run env s = .ok (.lowered r) t ↔
      Runs (lowerFunction func) env s r t := by
  refine runs_map.trans ⟨?_, fun h => ⟨r, h, rfl⟩⟩
  rintro ⟨r', h, heq⟩
  cases heq
  exact h

/-- Lowering a function adds a sealed function of its name, and the map leads to it. -/
theorem lowerFunction_adds (h : Runs (lowerFunction func) env s (some id) t) :
    ∃ f m, env.module.function func = .ok f ∧ m.name = f.name ∧ m.isSealed = true ∧
      id = s.nextFunction ∧ t.output.functions = s.output.functions ++ [m] ∧
      t.output.globals = s.output.globals ∧ t.functions = s.functions.insert func id := by
  have heffect := Call.effect env s (.lowerFunction func)
  rw [run_lowerFunction.mpr h] at heffect
  cases heffect with
  | lowered source name isSealed =>
    exact ⟨_, _, source, name, isSealed, rfl, rfl, rfl, rfl⟩

/-- A turn that does not lower a function leaves what the map has for it. -/
theorem find?_of_not_lowers (h : ∀ alloc, turn = ⟨.lowerFunction func, alloc⟩ →
      ∀ id t, ¬Runs (lowerFunction func) (env.under alloc) s (some id) t) :
    (Outcome.state (turn.run env s)).functions.find? func = s.functions.find? func := by
  obtain ⟨call, alloc⟩ := turn
  have heffect := Turn.effect env s ⟨call, alloc⟩
  generalize hrun : Turn.run env ⟨call, alloc⟩ s = r at heffect
  cases heffect with
  | failed same | begun same | resolved same => exact same.lowered func
  | skipped | imaged => rfl
  | @lowered func' =>
    have hne : func' ≠ func := by
      rintro rfl
      exact h alloc rfl _ _ (run_lowerFunction.mp hrun)
    exact (Bindings.find?_insert _ _ _ _).trans (if_neg hne)

theorem session_snoc (env : Env) (turns : List Turn) (turn : Turn) :
    session env (turns ++ [turn]) = Outcome.state (turn.run env (session env turns)) :=
  session_append env turns [turn]

/-- The session after a turn that lowers a function. -/
theorem session_of_lowers {alloc : Allocator}
    (h : Runs (lowerFunction func) (env.under alloc) (session env turns) r t) :
    session env (turns ++ [⟨.lowerFunction func, alloc⟩]) = t := by
  rw [session_snoc, Turn.run, run_lowerFunction.mpr h]
  rfl

/-- A later turn that does not lower the function keeps its last lowering the last one. -/
theorem LastLowering.snoc (h : LastLowering env turns func before id)
    (hturn : ∀ alloc, turn = ⟨.lowerFunction func, alloc⟩ →
      ∀ id', ¬LowersTo env turns alloc func id') :
    LastLowering env (turns ++ [turn]) func before id := by
  obtain ⟨alloc, hlowers, later, rfl, hlast⟩ := h
  refine ⟨alloc, hlowers, later ++ [turn], by simp, fun mid alloc' rest hsplit => ?_⟩
  rcases List.eq_nil_or_concat rest with rfl | ⟨rest', last, rfl⟩
  · obtain ⟨rfl, hsame⟩ := List.append_inj' hsplit rfl
    exact hturn alloc' (List.cons.inj hsame).1
  · rw [List.concat_eq_append, ← List.cons_append, ← List.append_assoc] at hsplit
    exact hlast mid alloc' rest' (List.append_inj' hsplit rfl).1

/-- The map holds what the last successful lowering of a function gave. -/
theorem find?_session :
    (session env turns).functions.find? func = some id ↔
      ∃ before, LastLowering env turns func before id := by
  constructor
  · -- The last turn lowers the function, or the map already had the id before it.
    intro hfind
    induction turns using List.reverseRecOn with
    | nil => cases hfind
    | append_singleton turns turn ih =>
      by_cases hturn : ∃ alloc, turn = ⟨.lowerFunction func, alloc⟩ ∧
        ∃ id', LowersTo env turns alloc func id'
      · obtain ⟨alloc, rfl, id', t, hrun⟩ := hturn
        obtain ⟨f, m, -, -, -, -, -, -, hmap⟩ := lowerFunction_adds hrun
        rw [session_of_lowers hrun, hmap, Bindings.find?_insert_self] at hfind
        cases hfind
        exact ⟨turns, alloc, ⟨t, hrun⟩, [], rfl,
          fun mid alloc' rest hnil => by simp at hnil⟩
      · have hkeep : ∀ alloc, turn = ⟨.lowerFunction func, alloc⟩ →
            ∀ id', ¬LowersTo env turns alloc func id' :=
          fun alloc heq id' hlowers => hturn ⟨alloc, heq, id', hlowers⟩
        rw [session_snoc, find?_of_not_lowers fun alloc heq id' t hrun =>
          hkeep alloc heq id' ⟨t, hrun⟩] at hfind
        obtain ⟨before, hlast⟩ := ih hfind
        exact ⟨before, hlast.snoc hkeep⟩
  · rintro ⟨before, alloc, ⟨t, hrun⟩, later, rfl, hlast⟩
    -- The lowering binds the id, and no later turn binds the function again.
    induction later using List.reverseRecOn with
    | nil =>
      obtain ⟨f, m, -, -, -, -, -, -, hmap⟩ := lowerFunction_adds hrun
      rw [session_of_lowers hrun, hmap, Bindings.find?_insert_self]
    | append_singleton later turn ih =>
      rw [← List.cons_append, ← List.append_assoc, session_snoc, find?_of_not_lowers]
      · exact ih fun mid alloc' rest hsplit =>
          hlast mid alloc' (rest ++ [turn]) (by simp [hsplit])
      · rintro alloc' rfl id' t' hrun'
        exact hlast later alloc' [] rfl id' ⟨t', hrun'⟩

/-- The function that the last lowering added is still where it was added. -/
theorem LastLowering.getElem? (h : LastLowering env turns func before id) :
    ∃ f m k, env.module.function func = .ok f ∧ m.name = f.name ∧
      k = (session env before).output.functions.length ∧ id = ⟨.ofNat k⟩ ∧
      (session env turns).output.functions[k]? = some m := by
  obtain ⟨alloc, ⟨t, hrun⟩, later, rfl, -⟩ := h
  obtain ⟨f, m, hf, hname, -, hid, hfunctions, -⟩ := lowerFunction_adds hrun
  refine ⟨f, m, _, hf, hname, rfl, hid, ?_⟩
  obtain ⟨added, hadded⟩ :=
    (State.grows_after env (session env (before ++ [⟨.lowerFunction func, alloc⟩]))
      later).1
  rw [← session_append, session_of_lowers hrun, hfunctions, List.append_assoc,
    List.append_assoc] at hadded
  rw [← List.singleton_append, ← hadded, List.getElem?_append_right (Nat.le_refl _),
    Nat.sub_self]
  rfl

/-! ## Refused requests -/

theorem lowerFunction_refused {m : Machine.Function} {rest : State} {cause : Allocation}
    (hf : env.module.function func = .ok f) (hplain : env.abi.isIntrinsic f.name = false)
    (hfill : Runs (fillFunction func f) env s m rest)
    (hrefused : env.allocator.refusal? .function = some cause) :
    ∃ t, Fails (lowerFunction func) env s (.allocation cause) t ∧ s.Same t := by
  have hrun := lowerFunction_by_fill hf hplain s s
  rw [show fillFunction func f env s = .ok m rest from hfill, hrefused] at hrun
  exact ⟨_, hrun, rfl, rfl, fun _ => rfl⟩

theorem lowerGlobal_refused {global : IR.GlobalId} {g : IR.Global} {image : Image}
    {cause : Allocation} (hg : env.module.global global = .ok g)
    (himage : @imageOf env.allocator env.module env.abi g = .ok image)
    (hrefused : env.allocator.refusal? .global = some cause) :
    Fails (lowerGlobal global) env s (.allocation cause) s := by
  have hfinish : @Program.finishGlobal env.allocator s.output image =
      .error (.allocation cause) :=
    bind_eq_error.mpr (.inl (by simp only [Allocator.ask, hrefused]))
  show lowerGlobal global env s = _
  rw [lowerGlobal_eq,
    bind_eq_error.mpr (.inr ⟨g, hg, bind_eq_error.mpr (.inr ⟨image, himage, hfinish⟩)⟩)]

/-- What holds of the session `s` that some turns led to, whatever memory there is. -/
structure Atomic (env : Env) (past : List Turn) (s : State) : Prop where
  /-- More turns extend both lists of the program at the end. -/
  grows : ∀ future, s.Grows (session env (past ++ future))
  /-- A call that fails, for whatever reason, leaves the lists and the map. -/
  failed : ∀ (turn : Turn) (e : Failure) (t : State), turn.run env s = .error e t →
    s.Same t
  /-- A complete function that memory is refused to is neither added nor bound. -/
  refusedFunction :
    ∀ (func : IR.FuncId) (f : IR.Function) (alloc : Allocator) (m : Machine.Function)
    (rest : State) (cause : Allocation), env.module.function func = .ok f →
    env.abi.isIntrinsic f.name = false →
    Runs (fillFunction func f) (env.under alloc) s m rest →
    alloc.refusal? .function = some cause →
    ∃ t, Fails (lowerFunction func) (env.under alloc) s (.allocation cause) t ∧ s.Same t
  /-- Nor is a complete image. -/
  refusedGlobal :
    ∀ (global : IR.GlobalId) (g : IR.Global) (alloc : Allocator) (image : Image)
    (cause : Allocation), env.module.global global = .ok g →
    @imageOf alloc env.module env.abi g = .ok image →
    alloc.refusal? .global = some cause →
    Fails (lowerGlobal global) (env.under alloc) s (.allocation cause) s
  /-- So does beginning a function, resolving a value, and skipping an intrinsic. -/
  begun : ∀ (func : IR.FuncId) (alloc : Allocator) (t : State),
    Runs (beginFunction func) (env.under alloc) s () t → s.Same t
  resolved : ∀ (value : IR.ValueId) (alloc : Allocator) (id : OperandId) (t : State),
    Runs (resolve value) (env.under alloc) s id t → s.Same t
  skipped : ∀ (func : IR.FuncId) (alloc : Allocator) (t : State),
    Runs (lowerFunction func) (env.under alloc) s none t → s.Same t
  /-- Lowering a global adds one image, of its name. -/
  imaged : ∀ (global : IR.GlobalId) (alloc : Allocator) (t : State),
    Runs (lowerGlobal global) (env.under alloc) s () t →
    ∃ g image, env.module.global global = .ok g ∧ image.name = g.name ∧
      t.output.globals = s.output.globals ++ [image] ∧
      t.output.functions = s.output.functions ∧
      ∀ func, t.functions.find? func = s.functions.find? func
  /--
  Lowering a function adds one sealed function, of its name, and binds it to the id of its
  place.
  -/
  lowered : ∀ (func : IR.FuncId) (alloc : Allocator) (id : Machine.FuncId) (t : State),
    Runs (lowerFunction func) (env.under alloc) s (some id) t →
    ∃ f m, env.module.function func = .ok f ∧ m.name = f.name ∧ m.isSealed = true ∧
      t.output.functions = s.output.functions ++ [m] ∧
      t.output.globals = s.output.globals ∧
      (∀ other, t.functions.find? other =
        if func = other then some id else s.functions.find? other) ∧
      (t.output.functions.length ≤ 2 ^ 32 → id.index.toNat = s.output.functions.length)
  /-- The map has the id that the last successful lowering gave. -/
  last : ∀ (func : IR.FuncId) (id : Machine.FuncId),
    s.functions.find? func = some id ↔ ∃ before, LastLowering env past func before id
  /-- That id is the place of the function that was added then, and of the name. -/
  place : ∀ (func : IR.FuncId) (id : Machine.FuncId) (before : List Turn),
    LastLowering env past func before id → s.output.functions.length ≤ 2 ^ 32 →
    ∃ f m, env.module.function func = .ok f ∧ m.name = f.name ∧
      s.output.functions[id.index.toNat]? = some m ∧
      id.index.toNat = (session env before).output.functions.length

/--
Sessions change their output atomically, whatever calls were made, whatever memory was
refused to them and however they ended. Ids are 32-bit, so they are places as long as
there are at most `2 ^ 32` functions.
-/
theorem session_atomic (env : Env) (past : List Turn) :
    Atomic env past (session env past) where
  grows future := by
    rw [session_append]
    exact State.grows_after env _ future
  failed turn e t hrun := by
    obtain ⟨call, alloc⟩ := turn
    have heffect := Turn.effect env (session env past) ⟨call, alloc⟩
    rw [hrun] at heffect
    cases heffect with
    | failed same => exact same
  refusedFunction func f alloc m rest cause hf hplain hfill hrefused :=
    lowerFunction_refused hf hplain hfill hrefused
  refusedGlobal global g alloc image cause hg himage hrefused :=
    lowerGlobal_refused hg himage hrefused
  begun func alloc t hrun := by
    have hsame := (beginFunction_local func).same (env.under alloc) (session env past)
    rwa [show beginFunction func _ _ = .ok () t from hrun] at hsame
  resolved value alloc id t hrun := by
    have hsame := (resolve_local value).same (env.under alloc) (session env past)
    rwa [show resolve value _ _ = .ok id t from hrun] at hsame
  skipped func alloc t hrun := by
    have heffect := Call.effect (env.under alloc) (session env past) (.lowerFunction func)
    rw [run_lowerFunction.mpr hrun] at heffect
    cases heffect with
    | skipped => exact .refl _
  imaged global alloc t hrun := by
    have hglobal : (Call.lowerGlobal global).run (env.under alloc) (session env past) =
        .ok .imaged t :=
      runs_map.mpr ⟨(), hrun, rfl⟩
    have heffect := Call.effect (env.under alloc) (session env past) (.lowerGlobal global)
    rw [hglobal] at heffect
    cases heffect with
    | imaged source name => exact ⟨_, _, source, name, rfl, rfl, fun _ => rfl⟩
  lowered func alloc id t hrun := by
    obtain ⟨f, m, hf, hname, hsealed, rfl, hfunctions, hglobals, hmap⟩ :=
      lowerFunction_adds hrun
    refine ⟨f, m, hf, hname, hsealed, hfunctions, hglobals, fun other => ?_,
      fun hsmall => ?_⟩
    · rw [hmap, Bindings.find?_insert]
    · rw [hfunctions, List.length_append, List.length_singleton] at hsmall
      exact IR.Module.toNat_ofNat_of_lt (Nat.lt_succ_self _) hsmall
  last func id := find?_session
  place func id before hlast hsmall := by
    obtain ⟨f, m, k, hf, hname, hk, rfl, hget⟩ := hlast.getElem?
    have hindex :=
      IR.Module.toNat_ofNat_of_lt (List.getElem?_eq_some_iff.mp hget).1 hsmall
    exact ⟨f, m, hf, hname, by rw [hindex, hget], by rw [hindex, hk]⟩

end

/-- A function `sum` that fails at its second instruction, and `main`. -/
def recovering : Env where
  module :=
    { name := "m"
      values := #[⟨.ptr .void, .function ⟨0⟩⟩, ⟨.void, .block ⟨0⟩⟩,
        ⟨.ptr .f64, .instruction ⟨0⟩⟩,
        ⟨.f64, .instruction ⟨1⟩⟩, ⟨.ptr .void, .function ⟨1⟩⟩, ⟨.void, .block ⟨1⟩⟩,
        ⟨.void, .instruction ⟨2⟩⟩]
      insts := #[⟨.alloca, [], .ptr .f64, ⟨0⟩, ⟨2⟩⟩, ⟨.fadd, [⟨2⟩, ⟨2⟩], .f64, ⟨0⟩, ⟨3⟩⟩,
        ⟨.ret, [], .void, ⟨1⟩, ⟨6⟩⟩]
      blocks := #[⟨⟨0⟩, none, [⟨0⟩, ⟨1⟩], ⟨1⟩⟩, ⟨⟨1⟩, none, [⟨2⟩], ⟨5⟩⟩]
      functions := #[⟨"sum", ⟨[], .void, false⟩, [], [⟨0⟩], false, ⟨0⟩⟩,
        ⟨"main", ⟨[], .void, false⟩, [], [⟨1⟩], false, ⟨4⟩⟩]
      globals := #[] }
  abi := .win64

/-- An allocator that refuses one request. -/
@[reducible] def refusing (request : Machine.Request) : Allocator where
  refusal? r := if r = request then some .exhausted else none

/-- `sum`, and then `main` without memory for its instruction or for the whole of it. -/
def hopeless : List Turn :=
  [⟨.lowerFunction ⟨0⟩, .host⟩, ⟨.lowerFunction ⟨1⟩, refusing (.inst ⟨0⟩ 0)⟩,
    ⟨.lowerFunction ⟨1⟩, refusing .function⟩]

/-- `main`, then the hopeless turns, then `main` once more. -/
def retried : List Turn :=
  ⟨.lowerFunction ⟨1⟩, .host⟩ :: hopeless ++ [⟨.lowerFunction ⟨1⟩, .host⟩]

/-- Whether a step failed, and whether it did for want of memory. -/
def Outcome.failed? {α : Type} : Outcome α → Option Bool
  | .ok _ _ => none
  | .error (.allocation _) _ => some true
  | .error _ _ => some false

/--
The second lowering of `main` is its last one, and the hopeless turns leave nothing
behind.
-/
theorem retried_atomic :
    ((session recovering retried).output.functions.map (·.name) = ["main", "main"]) ∧
      (∃ before, LastLowering recovering retried ⟨1⟩ before ⟨1⟩) ∧
      (hopeless.map fun turn =>
        Outcome.failed? (turn.run recovering (session recovering retried))) =
        [some false, some true, some true] ∧
      ∀ turn ∈ hopeless, ∃ e t,
        turn.run recovering (session recovering retried) = .error e t ∧
        (session recovering retried).Same t := by
  have hlast := (session_atomic recovering retried).last ⟨1⟩ ⟨1⟩
  have hends : (hopeless.map fun turn =>
    Outcome.failed? (turn.run recovering (session recovering retried))) =
      [some false, some true, some true] := by
    decide +kernel
  refine ⟨by decide +kernel, hlast.mp (by decide +kernel), hends, fun turn hmem => ?_⟩
  cases hrun : turn.run recovering (session recovering retried) with
  | ok r t =>
    have hnone : none ∈ [some false, some true, some true] :=
      hends ▸ List.mem_map.mpr ⟨turn, hmem, by rw [hrun]; rfl⟩
    simp at hnone
  | error e t =>
    exact ⟨e, t, rfl, (session_atomic recovering retried).failed turn e t hrun⟩

end InstSelect.Lowering
