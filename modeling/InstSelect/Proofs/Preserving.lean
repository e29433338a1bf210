import InstSelect.Proofs.Fetching
import InstSelect.Proofs.Frames

/-!
# Saving and reloading arguments

The code of `preserving`: the incoming arguments that live in the given registers are
saved to their shadow slots, the body's code follows, and the same arguments are reloaded.
With it comes the discipline that all selected code other than returns obeys: `Tame` code
is quiet code and such sequences around confined code, one after the other.
-/

namespace InstSelect.Machine

variable {a : Incoming}

/-- Arguments in the registers of the convention, in the order of the parameters. -/
structure Placed (args : List Incoming) : Prop where
  index : ∀ (j : Nat) (a : Incoming), args[j]? = some a → a.index = j
  regs : args.map Incoming.reg <+: Abi.win64.argRegisters

namespace Placed

variable {args : List Incoming}

theorem index_lt (h : Placed args) (ha : a ∈ args) : a.index < 4 := by
  obtain ⟨j, hj⟩ := List.mem_iff_getElem?.mp ha
  have hlen : args.length ≤ 4 := by
    have hle := h.regs.length_le
    rwa [List.length_map] at hle
  have hlt := (List.getElem?_eq_some_iff.mp hj).1
  rw [h.index j a hj]
  omega

theorem pairwise_index (h : Placed args) : args.Pairwise (·.index ≠ ·.index) := by
  rw [List.pairwise_iff_getElem]
  intro i j hi hj hij
  rw [h.index i _ (List.getElem?_eq_getElem hi),
    h.index j _ (List.getElem?_eq_getElem hj)]
  omega

theorem pairwise_reg (h : Placed args) : args.Pairwise (·.reg ≠ ·.reg) := by
  have hnodup : (args.map Incoming.reg).Nodup := h.regs.sublist.nodup (by decide)
  exact List.pairwise_map.mp hnodup

theorem reg_mem (h : Placed args) (ha : a ∈ args) : a.reg ∈ Abi.win64.argRegisters :=
  h.regs.subset (List.mem_map_of_mem ha)

end Placed

end InstSelect.Machine

namespace InstSelect.Lowering

open Machine (Storage Operand OperandId PhysReg Code Arena Incoming)

variable {env : Env} {s s' t : State} {A : Arena} {args : List Incoming}
  {regs : List PhysReg} {xs : List (OperandId × Nat)} {α : Type} {j : Nat}
  {ys : List (OperandId × OperandId)}

/-! ## Incoming arguments -/

/-- The incoming arguments of the function being built, in their registers. -/
structure Arguments (A : Arena) (s : State) (args : List Incoming) : Prop where
  operands : ∀ c, s.current = some c →
    c.machine.args.mapM A.get? = some (args.map Incoming.operand)
  placed : Machine.Placed args

/-- Arguments stay as the function grows. -/
theorem Arguments.path {code : List Code} (h : Arguments A s args)
    (hp : Path env s s' code) :
    Arguments A s' args := by
  refine ⟨fun c' hc' => ?_, h.placed⟩
  obtain ⟨c, hc, hg⟩ := hp.shrunk hc'
  rw [hg.args]
  exact h.operands c hc

/-! ## The code of `preserving` -/

/-- Filtering by a test that changes nothing. -/
theorem runs_filterM {p : α → LowerM Bool} {as xs : List α}
    (hp : ∀ a b t, Runs (p a) env s b t → s = t) (h : Runs (as.filterM p) env s xs s') :
    s = s' ∧ ∀ f : α → Bool, (∀ a b, Runs (p a) env s b s → f a = b) →
      xs = as.filter f := by
  have haux : ∀ (as acc xs : List α) (s' : State),
    Runs (as.filterAuxM p acc) env s xs s' →
      s = s' ∧ ∀ f : α → Bool, (∀ a b, Runs (p a) env s b s → f a = b) →
        xs = (as.filter f).reverse ++ acc := by
    intro as
    induction as with
    | nil =>
      intro acc xs s' h
      obtain ⟨rfl, rfl⟩ := runs_pure.mp h
      exact ⟨rfl, fun _ _ => rfl⟩
    | cons a rest ih =>
      intro acc xs s' h
      obtain ⟨b, t, hb, h⟩ := runs_bind.mp h
      obtain rfl := hp a b t hb
      obtain ⟨rfl, hxs⟩ := ih _ xs s' h
      refine ⟨rfl, fun f hf => ?_⟩
      rw [hxs f hf, ← hf a b hb]
      cases hfa : f a <;> simp [hfa]
  rw [List.filterM, runs_bind] at h
  obtain ⟨ys, t, hys, hpure⟩ := h
  obtain ⟨rfl, hfilter⟩ := haux as [] ys t hys
  obtain ⟨rfl, rfl⟩ := runs_pure.mp hpure
  exact ⟨rfl, fun f hf => by rw [hfilter f hf]; simp⟩

/-- `x` is an argument's id with its index, as `a` describes it. -/
def Describes (A : Arena) (x : OperandId × Nat) (a : Incoming) : Prop :=
  A.get? x.1 = some a.operand ∧ a.index = x.2

theorem forall₂_zipIdx {ids : List OperandId} {k : Nat}
    (hget : ids.mapM A.get? = some (args.map Incoming.operand))
    (hidx : ∀ (j : Nat) (a : Incoming), args[j]? = some a → a.index = k + j) :
    List.Forall₂ (Describes A) (ids.zipIdx k) args := by
  rw [Machine.Function.mapM_eq_some, List.forall₂_map_right_iff] at hget
  induction hget generalizing k with
  | nil => exact .nil
  | @cons id a ids args hd _ ih =>
    rw [List.zipIdx_cons]
    refine .cons ⟨hd, ?_⟩ (ih fun j b hb => ?_)
    · simpa using hidx 0 a rfl
    · have := hidx (j + 1) b (by simpa using hb)
      omega

/-- Whether an operand is one of the given registers. -/
def inRegs (regs : List PhysReg) (o : Operand) : Bool :=
  (o.physReg?.map regs.contains).getD false

/--
The arguments that are found in registers, by any test that agrees with their operands.
-/
theorem argsIn_filter (h : Runs (argsIn regs) env s xs s') :
    s = s' ∧ ∃ c, s.current = some c ∧ ∀ f : OperandId × Nat → Bool,
      (∀ x o, Runs (operand x.1) env s o s → f x = inRegs regs o) →
        xs = c.machine.args.zipIdx.filter f := by
  simp only [argsIn, runs_bind, runs_machine] at h
  obtain ⟨_, _, ⟨c, hc, rfl, rfl⟩, h⟩ := h
  -- The test reads one operand and changes nothing.
  have htest : ∀ (x : OperandId × Nat) (b : Bool) (t : State),
    Runs (livesIn regs x) env s b t →
      s = t ∧ ∃ o, Runs (operand x.1) env s o s ∧ inRegs regs o = b := by
    intro x b t hrun
    simp only [livesIn, runs_bind] at hrun
    obtain ⟨o, _, ho, hrun⟩ := hrun
    obtain ⟨d, hd, hget, rfl⟩ := runs_operand.mp ho
    cases hphys : o.physReg? with
    | none | some r =>
      rw [hphys] at hrun
      obtain ⟨rfl, rfl⟩ := runs_pure.mp hrun
      exact ⟨rfl, o, ho, by simp [inRegs, hphys]⟩
  obtain ⟨rfl, hxs⟩ := runs_filterM (fun x b t hrun => (htest x b t hrun).1) h
  refine ⟨rfl, c, hc, fun f hf => hxs f fun x b hrun => ?_⟩
  obtain ⟨-, o, ho, rfl⟩ := htest x b s hrun
  exact hf x o ho

/-- The arguments among the given registers. -/
theorem argsIn_describes (h : Runs (argsIn regs) env s xs s') :
    s = s' ∧ ∀ (A : Arena) (args : List Incoming), s.Within A → Arguments A s args →
      List.Forall₂ (Describes A) xs (args.filter fun a => regs.contains a.reg) := by
  obtain ⟨rfl, c, hc, hxs⟩ := argsIn_filter h
  refine ⟨rfl, fun A args hA hargs => ?_⟩
  rw [hxs (fun x => ((A.get? x.1).map (inRegs regs)).getD false) (by
    intro x o ho
    rw [operand_get ho hA]
    rfl)]
  have hall :=
    forall₂_zipIdx (k := 0) (hargs.operands c hc) (by simpa using hargs.placed.index)
  clear h hxs hargs
  generalize c.machine.args.zipIdx = ys at hall ⊢
  induction hall with
  | nil => exact .nil
  | @cons x a ys args hd _ ih =>
    have hsame : ((A.get? x.1).map (inRegs regs)).getD false = regs.contains a.reg := by
      rw [hd.1]
      rfl
    simp only [List.filter_cons, hsame]
    split
    · exact .cons hd ih
    · exact ih

theorem shadowDisp_win64 (hj : j < 4) :
    Abi.win64.shadowDisp j = .ok (Int32.ofNat (16 + 8 * j)) := by
  match j, hj with
  | 0, _ | 1, _ | 2, _ | 3, _ => rfl

/-- The shadow slot of an argument is its home. -/
theorem shadowSlot_adds {st : Storage} {id : OperandId} (habi : env.abi = .win64)
    (h : Runs (shadowSlot j st) env s id s') :
    ∃ o, Adds env s s' id o ∧
      ∀ a : Incoming, a.index < 4 → a.index = j → a.storage = st → o = a.home := by
  simp only [shadowSlot, runs_bind, runs_theAbi, runs_checkWord] at h
  obtain ⟨_, _, ⟨rfl, rfl⟩, disp, _, ⟨hdisp, rfl⟩, h⟩ := h
  refine ⟨_, mem_adds h ?_, ?_⟩
  · intro c r _ hr
    rcases List.mem_cons.mp hr with hr | hr <;> cases hr
  · rintro a ha rfl rfl
    rw [habi, shadowDisp_win64 ha] at hdisp
    cases hdisp
    rw [habi]
    rfl

/-- An argument saved under its id, with the id of its slot. -/
def SavedAs (A : Arena) (y : OperandId × OperandId) (a : Incoming) : Prop :=
  A.get? y.1 = some a.operand ∧ A.get? y.2 = some a.home

theorem saveArg_path {x : OperandId × Nat} {y : OperandId × OperandId}
    (habi : env.abi = .win64) (h : Runs (saveArg x) env s y s') :
    ∃ code, Path env s s' code ∧ s'.vregs = s.vregs ∧
      ∀ (A : Arena) (a : Incoming), s'.Within A → a.index < 4 → Describes A x a →
        code = [a.save] ∧ SavedAs A y a := by
  obtain ⟨id, j⟩ := x
  simp only [saveArg, runs_bind, runs_storage, runs_pure] at h
  obtain ⟨st, _, ⟨o, ho, rfl⟩, slot, t, hslot, _, _, hemit, rfl, rfl⟩ := h
  obtain ⟨c, hc, _, rfl⟩ := runs_operand.mp ho
  obtain ⟨home, hadds, hhome⟩ := shadowSlot_adds habi hslot
  obtain ⟨os, hpath, hvregs, -, hos⟩ := emit_path hemit
  refine ⟨_, hadds.path.after hpath, hvregs.trans hadds.vregs, fun A a hA ha hx => ?_⟩
  obtain ⟨hid, rfl⟩ := hx
  have ht := hpath.within hA
  -- The class the slot was made at is the argument's.
  cases (operand_get ho (hadds.path.within ht)).symm.trans hid
  obtain rfl := hhome a ha rfl rfl
  obtain ⟨p, q, hp, hq, rfl⟩ := mapM_pair.mp (hos A hA)
  cases (hadds.get A ht).symm.trans hp
  cases hid.symm.trans hq
  exact ⟨rfl, hid, hp⟩

/-- Saving arguments, one after the other. -/
theorem saveArgs_path (habi : env.abi = .win64) (h : Runs (xs.mapM saveArg) env s ys s') :
    ∃ code, Path env s s' code ∧ s'.vregs = s.vregs ∧
      ∀ (A : Arena) (args : List Incoming), s'.Within A → (∀ a ∈ args, a.index < 4) →
        List.Forall₂ (Describes A) xs args →
        code = args.map Incoming.save ∧ List.Forall₂ (SavedAs A) ys args := by
  induction xs generalizing s ys with
  | nil =>
    obtain ⟨rfl, rfl⟩ := runs_mapM_nil.mp h
    refine ⟨[], .refl s, rfl, fun A args _ _ hxs => ?_⟩
    cases hxs
    exact ⟨rfl, .nil⟩
  | cons x xs ih =>
    obtain ⟨y, t, ys, hy, hys, rfl⟩ := runs_mapM_cons.mp h
    obtain ⟨code, hpath, hvregs, hcode⟩ := saveArg_path habi hy
    obtain ⟨code', hpath', hvregs', hcode'⟩ := ih hys
    refine ⟨_, hpath.trans hpath', hvregs'.trans hvregs, fun A args hA hidx hxs => ?_⟩
    obtain ⟨a, args, hx, hrest, rfl⟩ := List.forall₂_cons_left_iff.mp hxs
    obtain ⟨rfl, hsaved⟩ := hcode A a (hpath'.within hA) (hidx a (by simp)) hx
    obtain ⟨rfl, hsaved'⟩ := hcode' A args hA (fun b hb => hidx b (by simp [hb])) hrest
    exact ⟨rfl, .cons hsaved hsaved'⟩

/-- Reloading saved arguments, one after the other. -/
theorem reloadArgs_path {u : Unit} (h : Runs (ys.forM reloadArg) env s u s') :
    ∃ code, Path env s s' code ∧ s'.vregs = s.vregs ∧
      ∀ (A : Arena) (args : List Incoming), s'.Within A →
        List.Forall₂ (SavedAs A) ys args →
        code = args.map Incoming.reload := by
  induction ys generalizing s with
  | nil =>
    obtain rfl := runs_forM_nil.mp h
    refine ⟨[], .refl s, rfl, fun A args _ hys => ?_⟩
    cases hys
    rfl
  | cons y ys ih =>
    obtain ⟨t, hreload, hrest⟩ := runs_forM_cons.mp h
    obtain ⟨code, hpath, hvregs, hcode⟩ := ih hrest
    obtain ⟨os, hpath', hvregs', -, hos⟩ := emit_path hreload
    refine ⟨_, hpath'.trans hpath, hvregs.trans hvregs', fun A args hA hys => ?_⟩
    obtain ⟨a, args, hy, hrest', rfl⟩ := List.forall₂_cons_left_iff.mp hys
    obtain ⟨p, q, hp, hq, rfl⟩ := mapM_pair.mp (hos A (hpath.within hA))
    cases hy.1.symm.trans hp
    cases hy.2.symm.trans hq
    rw [hcode A args hA hrest']
    rfl

/-- The saved arguments, by the registers they live in. -/
def savedIn (regs : List PhysReg) (args : List Incoming) : List Incoming :=
  args.filter fun a => regs.contains a.reg

/--
The code of `preserving`: saves, the body, reloads. What the body's code is, the caller
knows; here it only has to be a path.
-/
theorem preserving_path {body : LowerM α} {x : α} (habi : env.abi = .win64)
    (h : Runs (preserving regs body) env s x s')
    (hbody : ∀ t u, t.vregs = s.vregs → Runs body env t x u → ∃ code, Path env t u code) :
    ∃ t u pre post, Path env s t pre ∧ Runs body env t x u ∧ Path env u s' post ∧
      t.vregs = s.vregs ∧ s'.vregs = u.vregs ∧
      ∀ (A : Arena) (args : List Incoming), s'.Within A → Arguments A s args →
        pre = (savedIn regs args).map Incoming.save ∧
        post = (savedIn regs args).map Incoming.reload := by
  simp only [preserving, runs_bind, runs_pure] at h
  obtain ⟨xs, _, hxs, ys, t, hys, _, u, hrun, _, _, hreload, rfl, rfl⟩ := h
  obtain ⟨rfl, hdescribes⟩ := argsIn_describes hxs
  obtain ⟨pre, hpre, hvregs, hpre'⟩ := saveArgs_path habi hys
  obtain ⟨post, hpost, hvregs', hpost'⟩ := reloadArgs_path hreload
  obtain ⟨code, hcode⟩ := hbody t u hvregs hrun
  refine ⟨t, u, pre, post, hpre, hrun, hpost, hvregs, hvregs', fun A args hA hargs => ?_⟩
  have ht := hcode.within (hpost.within hA)
  obtain ⟨rfl, hsaved⟩ := hpre' A (savedIn regs args) ht
    (fun a ha => hargs.placed.index_lt (List.mem_filter.mp ha).1)
    (hdescribes A args (hpre.within ht) hargs)
  exact ⟨rfl, hpost' A _ hA hsaved⟩

end InstSelect.Lowering

namespace InstSelect.Machine

open Lowering (savedIn)

variable {h : Host} {σ τ : Cpu} {args : List Incoming} {n : Nat} {code : List Code}
  {e : Exit}

/-! ## Tame code -/

/-- Virtual registers below `n` are not written. -/
def Code.SparesVirt (n : Nat) (c : Code) : Prop :=
  ∀ dst ∈ c.dst?, ∀ r, dst.form = .virt r → n ≤ r.index.toNat

/--
Code that obeys the discipline of all instructions but returns: quiet, or confined to some
registers between the saves and the reloads of the arguments that live there. Only where
`divides` is set may it contain divisions.
-/
inductive Tame (divides : Bool) (args : List Incoming) (n : Nat) : List Code → Prop
  | quiet {code : List Code} (quiet : ∀ c ∈ code, c.Quiet n) : Tame divides args n code
  | preserving (regs : List PhysReg) {body : List Code} (base : .rbp ∉ regs)
      (accumulator : .rax ∈ regs → divides = true)
      (confined : ∀ c ∈ body, c.Confined .win64 regs)
      (virt : ∀ c ∈ body, c.SparesVirt n) :
      Tame divides args n ((savedIn regs args).map Incoming.save ++ body ++
        (savedIn regs args).map Incoming.reload)
  | append {xs ys : List Code} :
      Tame divides args n xs → Tame divides args n ys → Tame divides args n (xs ++ ys)

theorem Tame.divides_eq_false (h : Tame false args n code) :
    ∀ c ∈ code, c.op.divides = false := by
  induction h with
  | quiet hq =>
    intro c hc
    have hnone := (hq c hc).1
    cases hop : c.op <;> simp_all [Op.clobbersNothing, Op.divides]
  | append _ _ ih ih' =>
    intro c hc
    rcases List.mem_append.mp hc with hc | hc
    · exact ih c hc
    · exact ih' c hc
  | preserving regs base accumulator confined virt =>
    intro c hc
    simp only [List.mem_append, List.mem_map] at hc
    rcases hc with (⟨a, -, rfl⟩ | hc) | ⟨a, -, rfl⟩
    · rfl
    · cases hdiv : c.op.divides with
      | false => rfl
      | true => exact absurd (accumulator ((confined c hc).divides hdiv)) (by simp)
    · rfl

/--
The argument registers hold the same at the arguments' widths, and older virtual registers
do.
-/
structure Preserves (args : List Incoming) (n : Nat) (σ τ : Cpu) : Prop where
  args : ∀ a ∈ args, (τ.phys a.reg).setWidth a.storage.width =
    (σ.phys a.reg).setWidth a.storage.width
  virt : ∀ r, r.index.toNat < n → τ.virt r = σ.virt r

namespace Preserves

theorem of_keeps (hk : Keeps n σ τ) : Preserves args n σ τ :=
  ⟨fun _ _ => by rw [hk.phys], hk.virt⟩

theorem trans {ρ : Cpu} (h1 : Preserves args n σ τ) (h2 : Preserves args n τ ρ) :
    Preserves args n σ ρ :=
  ⟨fun a ha => (h2.args a ha).trans (h1.args a ha),
    fun r hr => (h2.virt r hr).trans (h1.virt r hr)⟩

end Preserves

/-- Code that does not write older virtual registers keeps them. -/
theorem virt_of_run (hv : ∀ c ∈ code, c.SparesVirt n) (hrun : h.run code σ = some e)
    (r : VReg) (hr : r.index.toNat < n) : e.cpu.virt r = σ.virt r := by
  have hstep : ∀ (c : Code) (ρ : Cpu) (e : Exit), c ∈ code → h.step ρ c = some e →
      e.cpu.virt r = ρ.virt r := by
    intro c ρ e hc hs
    refine (Frame.of_step hs).virt r fun o ho hform => ?_
    have := hv c hc o ho r hform
    omega
  clear hv
  induction code generalizing σ with
  | nil =>
    cases hrun
    rfl
  | cons c rest ih =>
    rw [Host.run] at hrun
    split at hrun
    · next τ hτ =>
      rw [ih hrun fun d ρ e hd => hstep d ρ e (by simp [hd])]
      exact hstep c σ _ (by simp) hτ
    · exact hstep c σ e (by simp) hrun

theorem sparesVirt_save (a : Incoming) : a.save.SparesVirt n := by
  rintro dst hdst r hform
  cases hdst
  cases hform

theorem sparesVirt_reload (a : Incoming) : a.reload.SparesVirt n := by
  rintro dst hdst r hform
  cases hdst
  cases hform

/-- Tame code keeps every argument at its width, and older virtual registers. -/
theorem Tame.preserves {divides : Bool} (hp : Placed args) (habi : h.abi = .win64)
    (ht : Tame divides args n code) (hrun : h.run code σ = some e) :
    Preserves args n σ e.cpu := by
  induction ht generalizing σ e with
  | quiet hq => exact .of_keeps (Keeps.of_run hq hrun)
  | append _ _ ih ih' =>
    rcases Host.run_append hrun with ⟨τ, hxs, hys⟩ | hxs
    · exact (ih hxs).trans (ih' hys)
    · exact ih hxs
  | @preserving regs body base _ confined virt =>
    have hmem : ∀ a ∈ savedIn regs args, a ∈ args := fun a ha => (List.mem_filter.mp ha).1
    have hin : ∀ a ∈ savedIn regs args, a.reg ∈ regs := fun a ha => by
      simpa using (List.mem_filter.mp ha).2
    obtain ⟨hsaved, hother⟩ := run_preserving habi base
      (fun a ha => hp.index_lt (hmem a ha)) hin (hp.pairwise_index.filter _)
      (hp.pairwise_reg.filter _) confined hrun
    refine ⟨fun a ha => ?_, virt_of_run ?_ hrun⟩
    · by_cases hreg : a.reg ∈ regs
      · exact hsaved a (List.mem_filter.mpr ⟨ha, by simpa using hreg⟩)
      · rw [hother a.reg (Or.inl (hp.reg_mem ha)) hreg]
    · intro c hc
      rcases List.mem_append.mp hc with hc | hc
      · rcases List.mem_append.mp hc with hc | hc
        · obtain ⟨a, -, rfl⟩ := List.mem_map.mp hc
          exact sparesVirt_save a
        · exact virt c hc
      · obtain ⟨a, -, rfl⟩ := List.mem_map.mp hc
        exact sparesVirt_reload a

end InstSelect.Machine
