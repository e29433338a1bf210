import InstSelect.Proofs.ArenaContents
import InstSelect.Proofs.Assembly

/-!
# The stack that is reserved for calls

A machine function reserves the outgoing space of the call that needs most of it. Only
calls reserve space: every other instruction and the copies of phis leave the amount as it
is, and a new function starts with none.
-/

namespace InstSelect.Abi

/--
Bytes that a call with `n` arguments needs: a slot for each, and not less than the least
amount.
-/
def outgoing (abi : Abi) (n : Nat) : Nat :=
  max (n * abi.shadowSlotSize.toUInt32.toNat) abi.minCallStack.toNat

/-- The amount after calls with these numbers of arguments. -/
def raised (abi : Abi) (r : Nat) (ns : List Nat) : Nat :=
  (ns.map fun n => abi.outgoing (n % 2 ^ 32)).foldl max r

/-- Arguments are counted in a 32-bit word. -/
theorem callStackSize_eq_ok {abi : Abi} {n : Nat} {bytes : UInt32}
    (h : abi.callStackSize n = .ok bytes) :
    bytes.toNat = abi.outgoing (n % 2 ^ 32) := by
  simp only [callStackSize, Word.mulU32, Lowering.bind_eq_ok, Lowering.pure_eq_ok] at h
  obtain ⟨needed, hneeded, rfl⟩ := h
  split at hneeded
  · next hfits =>
    cases hneeded
    rw [UInt32.toNat_ofNat'] at hfits
    rw [outgoing, UInt32.toNat_max, UInt32.toNat_mul, UInt32.toNat_ofNat',
      Nat.mod_eq_of_lt hfits]
  · cases hneeded

end InstSelect.Abi

namespace InstSelect.IR.Module

/-- Number of arguments of an instruction that is a call. -/
def callArgs? (m : Module) (id : InstId) : Option Nat :=
  match m.inst id with
  | .ok i => if i.opcode = .call then some (i.operands.length - 1) else none
  | .error _ => none

/-- Numbers of arguments of the calls of a function. -/
def callArgs (m : Module) (f : Function) : List Nat := (m.order f).filterMap m.callArgs?

end InstSelect.IR.Module

namespace InstSelect.Lowering

open IR (InstId Inst)
open Machine (Storage)

variable {α β : Type} {env : Env} {s s' : State} {x : LowerM α} {k : α → LowerM β}
  {ns ms : List Nat} {r : Nat}

/-! ## Amounts along a run -/

/-- The amount that the function being built reserves. -/
def Reserved (r : Nat) (s : State) : Prop := ∀ c, s.current = some c →
    c.machine.maxCallStack.toNat = r

theorem Reserved.of_current {t : State} (h : Reserved r s)
    (hcurrent : t.current = s.current) : Reserved r t :=
  fun c hc => h c (hcurrent ▸ hc)

theorem bears_reserved (form : Machine.Form) (st : Storage) :
    Bears (Reserved r) form st := by
  intro s c hc hs d hd
  cases hd
  exact hs c hc

theorem indifferent_reserved : Indifferent env (fun _ => True) (Reserved r) where
  plain _ _ _ _ := bears_reserved _ _
  alike _ _ _ _ _ _ _ _ := bears_reserved _ _
  result _ _ _ _ _ _ := bears_reserved _ _
  constant _ _ _ _ _ _ _ _ _ := bears_reserved _ _
  function _ _ _ _ _ := bears_reserved _ _
  global _ _ _ := bears_reserved _ _
  code s c f hc _ _ _ hstack hs d hd := by
    cases hd
    exact hstack ▸ hs c hc
  values _ _ _ _ hs := hs.of_current rfl
  blocks _ _ hs := hs.of_current rfl
  insertion s b hs d hd := by
    obtain ⟨c, hc, rfl⟩ := Option.map_eq_some_iff.mp hd
    exact hs c hc
  pending _ _ _ hs := hs.of_current rfl
  drawn _ _ _ _ _ _ _ _ := trivial

theorem durable_reserved : Durable env (fun _ => True) (Reserved r) :=
  indifferent_reserved.durable

/-- A step that makes the calls with these numbers of arguments. -/
def Serves (env : Env) (x : LowerM α) (ns : List Nat) : Prop :=
  ∀ s a s', Runs x env s a s' → (∀ n ∈ ns, n ≤ env.abi.argRegisters.length) ∧
    ∀ r, Reserved r s → Reserved (env.abi.raised r ns) s'

namespace Serves

/-- A step that keeps every amount makes no call. -/
theorem of_upheld (h : ∀ r, Upheld env (Reserved r) x) : Serves env x [] :=
  fun s a s' hrun => ⟨by simp, fun r hr => ((h r).ok s a s' hr hrun).1⟩

theorem bind (hx : Serves env x ns) (hk : ∀ a, Serves env (k a) ms) :
    Serves env (x >>= k) (ns ++ ms) := by
  intro s b s' hrun
  obtain ⟨a, t, hfirst, hrest⟩ := runs_bind.mp hrun
  obtain ⟨hns, hraise⟩ := hx s a t hfirst
  obtain ⟨hms, hraise'⟩ := hk a t b s' hrest
  refine ⟨fun n hn => (List.mem_append.mp hn).elim (hns n) (hms n), fun r hr => ?_⟩
  rw [Abi.raised, List.map_append, List.foldl_append]
  exact hraise' _ (hraise r hr)

theorem forM {f : β → LowerM Unit} {calls : β → List Nat} {xs : List β}
    (h : ∀ b ∈ xs, Serves env (f b) (calls b)) :
    Serves env (xs.forM f) (xs.flatMap calls) := by
  induction xs with
  | nil => exact of_upheld fun _ => .done _
  | cons b xs ih =>
    rw [List.forall_mem_cons] at h
    exact h.1.bind fun _ => ih h.2

end Serves

/-! ## Instructions -/

/-- A call raises the amount to what it needs itself. -/
theorem lowerCall_serves (i : Inst) :
    Serves env (lowerCall i) [i.operands.length - 1] := by
  intro s a s' hrun
  simp only [lowerCall, runs_bind, runs_theAbi] at hrun
  obtain ⟨_, _, ⟨rfl, rfl⟩, hrun⟩ := hrun
  split at hrun
  · cases hrun
  · next callee args hops =>
    split at hrun
    · cases hrun
    · next hfits =>
      simp only [runs_bind, runs_sourceModule, runs_check, runs_checkWord, runs_change,
        pure_eq_ok] at hrun
      obtain ⟨_, _, ⟨rfl, rfl⟩, sts, _, ⟨-, rfl⟩, st, _, ⟨-, rfl⟩, target, t, htarget,
        bytes, _, ⟨hbytes, rfl⟩, _, _, ⟨c, _, hc, rfl, rfl⟩, hbody⟩ := hrun
      have hcount : i.operands.length - 1 = args.length := by simp [hops]
      rw [hcount]
      refine ⟨by simpa using Nat.not_lt.mp hfits, fun r hr => ?_⟩
      have ht : Reserved r t :=
        ((durable_reserved.upholds (callTarget_routine trivial)).ok _ _ _ hr htarget).1
      have hraised : Reserved (env.abi.raised r [args.length])
          (t.withMachine c (c.machine.reserveCallStack bytes)) := by
        intro d hd
        cases hd
        show (max c.machine.maxCallStack bytes).toNat = max r _
        rw [UInt32.toNat_max, ht c hc, Abi.callStackSize_eq_ok hbytes]
      have hstorage : ∀ st, Suits (Reserved (env.abi.raised r [args.length])) st :=
        fun _ _ _ => bears_reserved _ _
      refine ((durable_reserved.upholds (preserving_routine _ ?_)).ok _ _ _
        hraised hbody).1
      exact (bindArguments_routine _ (fun _ _ => trivial) fun st _ => hstorage st).bind
        fun _ _ =>
        (Does.emit _ _).bind fun _ _ => callResult_routine (hstorage _)

/-- No other instruction changes the amount. -/
theorem lowerInst_serves (id : InstId) :
    Serves env (lowerInst id) (env.module.callArgs? id).toList := by
  intro s u s' hrun
  obtain ⟨i, found, t, hi, hselect, hbound⟩ := runs_lowerInst hrun
  have hcalls : Serves env (selectInst id i) (env.module.callArgs? id).toList := by
    rw [IR.Module.callArgs?, hi]
    by_cases hop : i.opcode = .call
    · simpa [hop, selectInst] using lowerCall_serves i
    · simpa [hop] using Serves.of_upheld fun r =>
        selectInst_upholds durable_reserved (fun _ _ => trivial) (fun _ _ _ _ => trivial)
          fun h => absurd h hop
  have hcurrent : s'.current = t.current := by
    cases found with
    | some result => rw [hbound.2]
    | none => rw [hbound]
  obtain ⟨hfits, hraise⟩ := hcalls s found t hselect
  exact ⟨hfits, fun r hr => (hraise r hr).of_current hcurrent⟩

theorem lowerBlock_serves (b : IR.BlockId) :
    Serves env (lowerBlock b)
    ((env.module.instsOf b).filterMap env.module.callArgs?) := by
  intro s u s' hrun
  simp only [lowerBlock, runs_bind, runs_sourceModule, runs_check] at hrun
  obtain ⟨id, s1, hfor, _, s2, hset, _, _, ⟨rfl, rfl⟩, data, _, ⟨hdata, rfl⟩, _, s3,
    hinsts, happend⟩ := hrun
  rw [IR.Module.instsOf, hdata, List.filterMap_eq_flatMap_toList]
  obtain ⟨hfits, hraise⟩ := Serves.forM (fun k _ => lowerInst_serves k) s2 () s3 hinsts
  refine ⟨hfits, fun r hr => ?_⟩
  have hr1 := ((blockFor_upholds durable_reserved b).ok _ _ _ hr hfor).1
  have hr2 := ((setInsertionBlock_upholds durable_reserved id).ok _ _ _ hr1 hset).1
  exact ((appendBlock_upholds durable_reserved id).ok _ _ _ (hraise r hr2) happend).1

/-! ## Functions -/

/--
A function that lowers reserves what the call with the largest need takes, and nothing if
it has no call. The need is counted in 32-bit words, which no call exceeds under a
convention with fewer than `2 ^ 32` registers for arguments.
-/
theorem lowerFunction_reserves {func : IR.FuncId} {id : Machine.FuncId}
    (h : Runs (lowerFunction func) env s (some id) s') :
    ∃ f m, env.module.function func = .ok f ∧
      s'.output.functions = s.output.functions ++ [m] ∧
      m.maxCallStack.toNat =
        ((env.module.callArgs f).map fun n => env.abi.outgoing (n % 2 ^ 32)).foldl max 0 ∧
      (env.abi.argRegisters.length < 2 ^ 32 →
        m.maxCallStack.toNat =
          ((env.module.callArgs f).map env.abi.outgoing).foldl max 0) := by
  obtain ⟨f, hf⟩ := function_of_lowerFunction h
  obtain ⟨-, s1, s2, s3, hopening, hfilling, hcopying, hclosing⟩ :=
    (runs_lowerFunction hf).mp h
  obtain ⟨c, hc, hm, -⟩ := settled_of_beginFunction hopening
  obtain ⟨d, hd, -, -, -, hclosed⟩ := runs_closeFunction.mp hclosing
  have hstart : Reserved 0 s1 := by
    intro e he
    cases hc.current.symm.trans he
    rw [hm.maxCallStack]
    rfl
  obtain ⟨hfits, hraise⟩ := Serves.forM (fun b _ => lowerBlock_serves b) s1 () s2 hfilling
  rw [← List.filterMap_flatMap] at hfits hraise
  have hend :=
    ((resolvePendingPhis_upholds durable_reserved).ok _ _ _ (hraise 0 hstart) hcopying).1
      d hd
  obtain ⟨A, -, -, -, hmachine⟩ :=
    exists_assembly_of_stages hf hopening hfilling hcopying hd
    (congrArg (·.output.functions) hclosed)
  refine ⟨f, { d.machine with isSealed := true }, hf, hmachine ▸ A.output, hend,
    fun hregs => ?_⟩
  have hcount : ∀ n ∈ env.module.callArgs f,
      env.abi.outgoing (n % 2 ^ 32) = env.abi.outgoing n :=
    fun n hn => by rw [Nat.mod_eq_of_lt (Nat.lt_of_le_of_lt (hfits n hn) hregs)]
  rw [← List.map_congr_left hcount]
  exact hend

/-- A call with two arguments, a division, and a call with one. -/
def twoCalls : IR.Module where
  name := "m"
  values := #[⟨.ptr (.function [.int .w32] (.int .w32) false), .function ⟨0⟩⟩,
    ⟨.ptr (.function [.int .w32] (.int .w32) false), .function ⟨1⟩⟩,
    ⟨.ptr (.function [.int .w32, .int .w32] (.int .w32) false), .function ⟨2⟩⟩,
    ⟨.int .w32, .argument ⟨0⟩ 0⟩,
    ⟨.void, .block ⟨0⟩⟩, ⟨.int .w32, .instruction ⟨0⟩⟩, ⟨.int .w32, .instruction ⟨1⟩⟩,
    ⟨.int .w32, .instruction ⟨2⟩⟩, ⟨.void, .instruction ⟨3⟩⟩]
  insts := #[⟨.call, [⟨2⟩, ⟨3⟩, ⟨3⟩], .int .w32, ⟨0⟩, ⟨5⟩⟩,
    ⟨.div, [⟨5⟩, ⟨3⟩], .int .w32, ⟨0⟩, ⟨6⟩⟩,
    ⟨.call, [⟨1⟩, ⟨6⟩], .int .w32, ⟨0⟩, ⟨7⟩⟩, ⟨.ret, [⟨7⟩], .void, ⟨0⟩, ⟨8⟩⟩]
  blocks := #[⟨⟨0⟩, none, [⟨0⟩, ⟨1⟩, ⟨2⟩, ⟨3⟩], ⟨4⟩⟩]
  functions := #[⟨"f", ⟨[.int .w32], .int .w32, false⟩, [⟨3⟩], [⟨0⟩], false, ⟨0⟩⟩,
    ⟨"g", ⟨[.int .w32], .int .w32, false⟩, [], [], true, ⟨1⟩⟩,
    ⟨"h", ⟨[.int .w32, .int .w32], .int .w32, false⟩, [], [], true, ⟨2⟩⟩]
  globals := #[]

/--
With slots of 24 bytes the first call needs 48 bytes, and the second the least amount of
32.
-/
theorem twoCalls_reserve :
    ∃ id s' m, Runs (lowerFunction ⟨0⟩)
      ⟨twoCalls, { Abi.win64 with shadowSlotSize := 24 }⟩ (.initial "m")
        (some id) s' ∧
      s'.output.functions = [m] ∧ m.maxCallStack.toNat = 48 := by
  obtain ⟨r, s', hrun, htest⟩ := runs_of_leaves (s := .initial "m")
    (show leaves (lowerFunction ⟨0⟩) ⟨twoCalls, { Abi.win64 with shadowSlotSize := 24 }⟩ _
      (fun r _ => r.isSome) = true by decide +kernel)
  obtain ⟨id, rfl⟩ := Option.isSome_iff_exists.mp htest
  obtain ⟨f, m, hf, hout, -, hstack⟩ := lowerFunction_reserves hrun
  cases hf
  exact ⟨id, s', m, hrun, hout, hstack (by decide)⟩

end InstSelect.Lowering
