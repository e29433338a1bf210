import InstSelect.Proofs.ValuePlaces

/-!
# Binding the arguments of calls

The arguments of a call go to the registers of the convention one after the other. An
argument of the caller's own may live in a register that an earlier one has just been
moved to, in any permutation; it is read from its shadow slot, to which all incoming
arguments were saved before. Every other argument is an operand that no physical register
has a part in. The callee is brought out of the way before that, and the result is copied
out of the return register before the incoming arguments are reloaded.
-/

namespace InstSelect.Machine

variable {h : Host} {σ τ : Cpu} {args : List Incoming} {n : Nat} {o src : Operand}
  {st : Storage}

/-! ## Outgoing arguments -/

/-- An argument of a call: where it is read, and the register that it goes to. -/
structure Outgoing where
  reg : PhysReg
  storage : Storage
  source : Operand
deriving DecidableEq, Repr

/-- Moves an argument to its register. -/
def Outgoing.code (x : Outgoing) : Code :=
  ⟨x.source.copyOp, [⟨.phys x.reg, x.storage⟩, x.source]⟩

/--
Of the physical registers, only the frame base has a part in the value of an operand.
-/
def Operand.OnFrame (o : Operand) : Prop :=
  ∀ (h : Host) (σ : Cpu) (f : PhysReg → BitVec 64), f .rbp = σ.phys .rbp →
    h.value { σ with phys := f } o = h.value σ o

theorem Incoming.onFrame_home (a : Incoming) : a.home.OnFrame := by
  intro h σ f hf
  show σ.memory.load (f .rbp + 0#64 + _) _ = σ.memory.load (σ.phys .rbp + 0#64 + _) _
  rw [hf]

theorem Operand.Lasting.onFrame (ho : o.Lasting n) : o.OnFrame := by
  intro h σ f _
  obtain ⟨form, st⟩ := o
  cases form with
  | phys r => exact absurd rfl (ho.virtual r)
  | mem a => exact ho.steady.elim
  | _ => rfl

theorem step_outgoing (x : Outgoing) :
    h.step σ x.code =
      some (.falls (σ.setPhys x.storage.width x.reg (h.value σ x.source))) :=
  step_copy _ _

/--
Arguments are bound one after the other. None of them is read from a register that another
one goes to, so what is read is what was there in the beginning.
-/
theorem run_outgoing {xs : List Outgoing} (hregs : (xs.map Outgoing.reg).Nodup)
    (hbase : ∀ x ∈ xs, x.reg ≠ .rbp) (hsrc : ∀ x ∈ xs, x.source.OnFrame) (h : Host)
    (σ : Cpu) :
    ∃ f, h.run (xs.map Outgoing.code) σ = some (.falls { σ with phys := f }) ∧
      (∀ x ∈ xs, (f x.reg).setWidth x.storage.width =
        (h.value σ x.source).setWidth x.storage.width) ∧
      ∀ r, (∀ x ∈ xs, x.reg ≠ r) → f r = σ.phys r := by
  induction xs generalizing σ with
  | nil => exact ⟨σ.phys, rfl, by simp, fun _ _ => rfl⟩
  | cons x xs ih =>
    obtain ⟨hnew, hregs⟩ := List.nodup_cons.mp hregs
    obtain ⟨hx, hbase⟩ := List.forall_mem_cons.mp hbase
    obtain ⟨-, hsrc⟩ := List.forall_mem_cons.mp hsrc
    have hne : ∀ y ∈ xs, y.reg ≠ x.reg :=
      fun y hy heq => hnew (heq ▸ List.mem_map_of_mem hy)
    let ρ := σ.setPhys x.storage.width x.reg (h.value σ x.source)
    have hrbp : ρ.phys .rbp = σ.phys .rbp := if_neg hx.symm
    obtain ⟨f, hrun, hbound, hothers⟩ := ih hregs hbase hsrc ρ
    refine ⟨f, ?_, List.forall_mem_cons.mpr ⟨?_, fun y hy => ?_⟩, fun r hr => ?_⟩
    · rw [List.map_cons, Host.run_cons_of_falls (step_outgoing x)]
      exact hrun
    · have hset : f x.reg = merge x.storage.width (σ.phys x.reg) (h.value σ x.source) :=
        (hothers x.reg hne).trans (if_pos rfl)
      rw [hset, setWidth_merge x.storage.width_le]
    · have hread : h.value ρ y.source = h.value σ y.source := hsrc y hy h σ ρ.phys hrbp
      rw [hbound y hy, hread]
    · obtain ⟨hrx, hr⟩ := List.forall_mem_cons.mp hr
      rw [hothers r hr]
      exact if_neg hrx.symm

/--
Where an argument is read once the incoming ones are saved: one of these from its shadow
slot, at the class that it is passed at, and any other one from its own place.
-/
inductive ReadFrom (args : List Incoming) (n : Nat) (st : Storage) :
    Operand → Operand → Prop
  | slot {a : Incoming} (incoming : a ∈ args) :
      ReadFrom args n st a.operand (Incoming.home { a with storage := st })
  | place {o : Operand} (lasting : o.Lasting n) : ReadFrom args n st o o

namespace ReadFrom

theorem onFrame (hr : ReadFrom args n st o src) : src.OnFrame := by
  cases hr with
  | slot => exact Incoming.onFrame_home _
  | place lasting => exact lasting.onFrame

/-- With the incoming arguments in their slots, what is read is the value from before. -/
theorem value {m : Memory} (hr : ReadFrom args n st o src) (hp : Placed args)
    (hk : Keeps n σ τ)
    (hm : ∀ a ∈ args, m.load (a.address τ) a.storage.size.toNat =
      zeroExtended a.storage.width (τ.phys a.reg))
    (hwidth : o.width = st.width) :
    (h.value { τ with memory := m } src).setWidth st.width =
      (h.value σ o).setWidth st.width := by
  cases hr with
  | @slot a ha =>
    -- The slot was written at the argument's class and is read at the other one, of the
    -- same width.
    have hsize : st.size.toNat = a.storage.size.toNat := by
      have hw : a.storage.width = st.width := hwidth
      rw [Storage.width_eq, Storage.width_eq] at hw
      omega
    have hindex : a.index < 4 := hp.index_lt ha
    have haddr : h.addressOf { τ with memory := m }
        (Incoming.home { a with storage := st }) = a.address τ :=
      Incoming.addressOf_home (a := { a with storage := st }) hindex
    have hslot : h.value { τ with memory := m } (Incoming.home { a with storage := st }) =
        zeroExtended a.storage.width (τ.phys a.reg) :=
      calc m.load (h.addressOf { τ with memory := m }
        (Incoming.home { a with storage := st })) st.size.toNat
          = m.load (a.address τ) a.storage.size.toNat := by rw [haddr, hsize]
        _ = _ := hm a ha
    rw [hslot, ← hwidth]
    exact (setWidth_zeroExtended a.storage.width_le _).trans (by rw [hk.phys]; rfl)
  | place lasting =>
    have hkeep : h.value { τ with memory := m } o = h.value τ o := by
      obtain ⟨form, st'⟩ := o
      cases form with
      | mem a => exact lasting.steady.elim
      | _ => rfl
    rw [hkeep, hk.value lasting.steady]

end ReadFrom

/-- A virtual register or a symbol. -/
def Operand.isTarget (o : Operand) : Bool :=
  match o.form with
  | .virt _ | .symbol _ => true
  | _ => false

/-- Physical registers and memory have no part in where a call goes. -/
theorem target_eq_value (ho : o.isTarget = true) (hvirt : τ.virt = σ.virt) :
    h.target τ o = h.value σ o := by
  obtain ⟨form, st⟩ := o
  cases form with
  | virt r => exact congrFun hvirt r
  | symbol name => rfl
  | _ => cases ho

/-! ## The code of a call -/

/-- Arguments are not passed in the register that their shadow slots are addressed by. -/
theorem ne_base_of_mem {r : PhysReg} (hr : r ∈ Abi.win64.argRegisters) : r ≠ .rbp := by
  rintro rfl
  exact absurd hr (by decide)

/-- Copies the result of a call out of the return register. -/
def collect (result : Option (VReg × Storage)) : List Code :=
  result.toList.map fun (r, st) => ⟨.mov, [⟨.virt r, st⟩, ⟨.phys .rax, st⟩]⟩

theorem run_collect (result : Option (VReg × Storage)) (h : Host) (σ : Cpu) :
    ∃ τ, h.run (collect result) σ = some (.falls τ) ∧ ∀ r st, result = some (r, st) →
      (τ.virt r).setWidth st.width = (σ.phys .rax).setWidth st.width := by
  cases result with
  | none => exact ⟨σ, rfl, nofun⟩
  | some x =>
    obtain ⟨r, st⟩ := x
    refine ⟨σ.setVirt st.width r (σ.phys .rax), rfl, ?_⟩
    rintro _ _ ⟨⟩
    exact read_write_virt (h := h) r st _

/-- The parts of the code of a call. -/
structure CallSequence where
  /-- Brings the callee out of the way. -/
  fetch : List Code
  saved : List Incoming
  outgoing : List Outgoing
  target : Operand
  /-- The register that the result is copied to. -/
  result : Option (VReg × Storage)

namespace CallSequence

variable {q : CallSequence}

def before (q : CallSequence) : List Code :=
  q.fetch ++ q.saved.map Incoming.save ++ q.outgoing.map Outgoing.code

def after (q : CallSequence) : List Code :=
  collect q.result ++ q.saved.map Incoming.reload

def code (q : CallSequence) : List Code := q.before ++ ⟨.call, [q.target]⟩ :: q.after

/-- A sequence for arguments in the registers of the convention. -/
structure Formed (q : CallSequence) (n : Nat) (callee : Operand) : Prop where
  placed : Placed q.saved
  fetch : ∃ m, Fetch n callee q.target q.fetch m
  target : q.target.isTarget = true
  address : callee.needsAddress = true → callee.storage = .ptr
  regs : q.outgoing.map Outgoing.reg <+: Abi.win64.argRegisters
  sources : ∀ x ∈ q.outgoing, ∃ o, ReadFrom q.saved n x.storage o x.source

namespace Formed

variable {callee : Operand}

/-- The target is as wide as the callee. -/
theorem width_target (hq : q.Formed n callee) : q.target.width = callee.width := by
  obtain ⟨m, hf⟩ := hq.fetch
  exact hf.width fun h => by rw [Operand.width, hq.address h]; rfl

/-- When the call is made, callee and arguments have the values from before. -/
theorem run_before (hq : q.Formed n callee) (h : Host) (σ : Cpu) :
    ∃ τ, h.run q.before σ = some (.falls τ) ∧
      (h.target τ q.target).setWidth callee.width =
        (h.value σ callee).setWidth callee.width ∧
      ∀ x ∈ q.outgoing, ∀ o, ReadFrom q.saved n x.storage o x.source →
        o.width = x.storage.width →
        (τ.phys x.reg).setWidth x.storage.width =
          (h.value σ o).setWidth x.storage.width := by
  obtain ⟨_, hf⟩ := hq.fetch
  obtain ⟨σ1, hfetch, hk, -, -, htarget⟩ := hf.run h σ
  obtain ⟨m, hsaves, hm, -⟩ :=
    Incoming.run_saves (h := h) (σ := σ1) (fun a ha => hq.placed.index_lt ha)
    hq.placed.pairwise_index
  have hnodup : (q.outgoing.map Outgoing.reg).Nodup := hq.regs.sublist.nodup (by decide)
  have hbase : ∀ x ∈ q.outgoing, x.reg ≠ .rbp := fun x hx =>
    ne_base_of_mem (hq.regs.subset (List.mem_map_of_mem hx))
  have hsrc : ∀ x ∈ q.outgoing, x.source.OnFrame := by
    intro x hx
    obtain ⟨o, ho⟩ := hq.sources x hx
    exact ho.onFrame
  obtain ⟨f, hbinds, hbound, -⟩ :=
    run_outgoing hnodup hbase hsrc h { σ1 with memory := m }
  refine ⟨{ σ1 with phys := f, memory := m }, ?_, ?_, fun x hx o ho hwidth => ?_⟩
  · rw [before, List.append_assoc, Host.run_append_of_falls hfetch,
      Host.run_append_of_falls hsaves]
    exact hbinds
  · have hsame : h.target { σ1 with phys := f, memory := m } q.target =
        h.value σ1 q.target :=
      target_eq_value hq.target rfl
    rw [hsame, ← hq.width_target]
    exact htarget
  · rw [hbound x hx]
    exact ho.value hq.placed hk hm hwidth

/-- Reloading the incoming arguments leaves the result alone. -/
theorem run_after (hq : q.Formed n callee) (h : Host) (σ : Cpu) :
    ∃ τ, h.run q.after σ = some (.falls τ) ∧ ∀ r st, q.result = some (r, st) →
      (τ.virt r).setWidth st.width = (σ.phys .rax).setWidth st.width := by
  obtain ⟨ρ, hρ, hresult⟩ := run_collect q.result h σ
  obtain ⟨f, hreloads, -⟩ :=
    Incoming.run_reloads (h := h) (σ := ρ) (fun a ha => hq.placed.index_lt ha)
    (fun a ha => ne_base_of_mem (hq.placed.reg_mem ha)) hq.placed.pairwise_reg
  refine ⟨{ ρ with phys := f }, ?_, hresult⟩
  rw [after, Host.run_append_of_falls hρ]
  exact hreloads

/-- There is one call in the code of a call. -/
theorem not_call (hq : q.Formed n callee) : ∀ x ∈ q.before ++ q.after, x.op ≠ .call := by
  have hcopy : ∀ o : Operand, o.copyOp ≠ .call := by
    intro o
    unfold Operand.copyOp
    split <;> nofun
  intro x hx
  simp only [before, after, collect, List.mem_append, List.mem_map] at hx
  rcases hx with ((hx | ⟨a, -, rfl⟩) | ⟨y, -, rfl⟩) | ⟨⟨r, st⟩, -, rfl⟩ | ⟨a, -, rfl⟩
  · obtain ⟨m, hf⟩ := hq.fetch
    have hquiet := (hf.quiet x hx).1
    intro hop
    rw [hop] at hquiet
    cases hquiet
  · nofun
  · exact hcopy _
  · nofun
  · nofun

end Formed

end CallSequence

end InstSelect.Machine

namespace InstSelect.Lowering

open IR (ValueId Inst)
open Machine (Storage Operand OperandId PhysReg VReg Code Arena Incoming Outgoing
  ReadFrom CallSequence Host Cpu)

variable {env : Env} {s s' t : State} {A : Arena} {incoming : List Incoming} {n j : Nat}
  {v callee : ValueId} {id : OperandId} {o : Operand} {st : Storage} {c : Current}
  {args : List ValueId} {result : Option OperandId} {code : List Code} {u : Unit}
  {storages : List Storage}

/-! ## States in which arguments are bound -/

/-- A finished arena is small, and so are the ones that it continues. -/
theorem State.Within.small (hA : s.Within A) : s.Small := by
  intro c hc
  have hle : c.machine.operands.toList.length ≤ A.operands.length := (hA c hc).length_le
  rw [Array.length_toList] at hle
  exact Nat.le_trans hle A.small

theorem State.Holds.get? (h : s.Holds id o) (hA : s.Within A) : A.get? id = some o := by
  obtain ⟨c, hc, ho⟩ := h
  exact (hA c hc).get? ho

/-- Incoming arguments are in their registers, and all other values where they last. -/
structure Bindable (env : Env) (A : Arena) (incoming : List Incoming) (n : Nat)
    (s : State) : Prop where
  current : ∃ c, s.current = some c
  arguments : Arguments A s incoming
  lodged : s.AllBound (Lodged env n)

namespace Bindable

theorem path (h : Bindable env A incoming n s) (hp : Path env s s' code) :
    Bindable env A incoming n s' := by
  obtain ⟨c, hc⟩ := h.current
  obtain ⟨c', hc', -⟩ := hp.grown hc
  exact ⟨⟨c', hc'⟩, h.arguments.path hp,
    (kept_lodged n).follows hc h.lodged (.of_path hp)⟩

theorem argument (h : Bindable env A incoming n s) (hc : s.current = some c)
    (hid : c.machine.args[j]? = some id) :
    ∃ a ∈ incoming, A.get? id = some a.operand ∧ a.index = j := by
  have hall := Machine.Function.mapM_eq_some.mp (h.arguments.operands c hc)
  rw [List.forall₂_map_right_iff, List.forall₂_iff_get] at hall
  obtain ⟨hlen, hall⟩ := hall
  obtain ⟨hj, rfl⟩ := List.getElem?_eq_some_iff.mp hid
  have hj' : j < incoming.length := hlen ▸ hj
  exact ⟨incoming[j], List.getElem_mem hj', hall j hj hj',
    h.arguments.placed.index j _ (List.getElem?_eq_getElem hj')⟩

/-- A value that is no incoming argument lasts. -/
theorem lasting (h : Bindable env A incoming n s) (hA : s.Within A)
    (hc : s.current = some c) (hv : s.values.find? v = some id)
    (hid : id ∉ c.machine.args) :
    ∃ o, A.get? id = some o ∧ o.Lasting n := by
  rcases h.lodged v id hv with ⟨d, hd, hmem⟩ | hstands
  · cases hc.symm.trans hd
    exact absurd hmem hid
  · obtain ⟨o, ho, hlasting⟩ := hstands hA.small
    exact ⟨o, ho.get? hA, hlasting.lasting⟩

/-- No value is in memory, and what names a slot or a symbol stands for its address. -/
theorem place (h : Bindable env A incoming n s) (hA : s.Within A)
    (hv : s.values.find? v = some id)
    (ho : A.get? id = some o) : (∀ a, o.form ≠ .mem a) ∧
      (o.needsAddress = true → o.storage = .ptr) := by
  obtain ⟨c, hc⟩ := h.current
  by_cases hid : id ∈ c.machine.args
  · obtain ⟨j, hj⟩ := List.mem_iff_getElem?.mp hid
    obtain ⟨a, -, ha, -⟩ := h.argument hc hj
    cases ho.symm.trans ha
    refine ⟨fun _ hform => ?_, fun haddress => ?_⟩
    · cases hform
    · cases haddress
  · obtain ⟨o', ho', hlasting⟩ := h.lasting hA hc hv hid
    cases ho.symm.trans ho'
    refine ⟨fun a hform => ?_, hlasting.address⟩
    have hsteady := hlasting.steady
    rw [Operand.Steady, hform] at hsteady
    exact hsteady

end Bindable

/-! ## Code -/

/-- The callee is kept where no argument goes, or copied there. -/
theorem callTarget_code (h : Runs (callTarget callee) env s id s') :
    ∃ root code, Path env s s' code ∧ s'.values.find? callee = some root ∧
      ∀ A : Arena, s'.Within A →
      Fetches A root id s.vregs code s'.vregs fun o o' => o'.isTarget = true ∨
        ∃ a, o.form = .mem a := by
  simp only [callTarget, runs_bind] at h
  obtain ⟨root, s1, hroot, o, _, ho, h⟩ := h
  obtain ⟨c, hc, _, rfl⟩ := runs_operand.mp ho
  obtain ⟨p1, n1, hbound⟩ := resolve_path hroot
  have hkeep : (o.isTarget = true ∨ ∃ a, o.form = .mem a) →
    Runs (pure root) env s1 id s' →
      ∃ root code, Path env s s' code ∧ s'.values.find? callee = some root ∧
      ∀ A : Arena, s'.Within A →
        Fetches A root id s.vregs code s'.vregs fun o o' => o'.isTarget = true ∨
        ∃ a, o.form = .mem a := by
    intro hform hrun
    obtain ⟨rfl, rfl⟩ := runs_pure.mp hrun
    refine ⟨root, [], p1, hbound, fun A hA => ?_⟩
    rw [n1]
    exact .keep (operand_get ho hA) hform
  split at h
  · next hform => exact hkeep (.inl (by rw [Operand.isTarget, hform])) h
  · next hform => exact hkeep (.inl (by rw [Operand.isTarget, hform])) h
  · next hform => exact hkeep (.inr ⟨_, hform⟩) h
  · obtain ⟨code, p2, hfetch⟩ := copyToVReg_fetch h
    refine ⟨root, code, p1.after p2, p2.values hbound, fun A hA => ?_⟩
    rw [← n1]
    refine (hfetch A hA).imp ?_
    rintro o' _ ⟨r, rfl⟩
    exact .inl rfl

/-- An argument is moved to its register from where it can be read. -/
theorem bindArgument_code {reg : PhysReg} (habi : env.abi = .win64)
    (h : Runs (bindArgument v st reg) env s u s') :
    ∃ id code, Path env s s' code ∧ s'.values.find? v = some id ∧
      ∀ (A : Arena) (incoming : List Incoming) (n : Nat), s'.Within A →
        Bindable env A incoming n s →
      ∃ o src, A.get? id = some o ∧ ReadFrom incoming n st o src ∧
        code = [Outgoing.code ⟨reg, st, src⟩] := by
  simp only [bindArgument, runs_bind] at h
  obtain ⟨id, s1, hid, home, _, hhome, h⟩ := h
  obtain ⟨p1, -, hbound⟩ := resolve_path hid
  simp only [callerArgIndex, runs_bind, runs_machine, runs_pure] at hhome
  obtain ⟨_, _, ⟨c, hc, rfl, rfl⟩, rfl, rfl⟩ := hhome
  -- Whether or not the value is an incoming argument, an operand is found that it can be
  -- read from.
  have hsource : ∃ source s2, Path env s1 s2 [] ∧
      Runs (physReg reg st >>= fun dst => materialize dst source) env s2 u s' ∧
      ∀ (A : Arena) (incoming : List Incoming) (n : Nat), s2.Within A →
      Bindable env A incoming n s1 →
        ∃ o src, A.get? id = some o ∧ A.get? source = some src ∧
        ReadFrom incoming n st o src := by
    cases hidx : c.machine.args.findIdx? (· = id) with
    | none =>
      simp only [hidx, runs_bind, runs_pure] at h
      obtain ⟨source, s2, ⟨rfl, rfl⟩, h⟩ := h
      refine ⟨id, s1, .refl s1, runs_bind.mpr h, fun A incoming n hA hr => ?_⟩
      have hnew : id ∉ c.machine.args := fun hmem => by
        simpa using List.findIdx?_eq_none_iff.mp hidx id hmem
      obtain ⟨o, ho, hlasting⟩ := hr.lasting hA hc hbound hnew
      exact ⟨o, o, ho, ho, .place hlasting⟩
    | some j =>
      simp only [hidx, runs_bind] at h
      obtain ⟨source, s2, hslot, h⟩ := h
      obtain ⟨home, hadds, hhome⟩ := shadowSlot_adds habi hslot
      refine ⟨source, s2, hadds.path, runs_bind.mpr h, fun A incoming n hA hr => ?_⟩
      have harg : c.machine.args[j]? = some id := by
        obtain ⟨hj, hget, -⟩ := List.findIdx?_eq_some_iff_getElem.mp hidx
        rw [List.getElem?_eq_getElem hj, of_decide_eq_true hget]
      obtain ⟨a, ha, hget, hindex⟩ := hr.argument hc harg
      have hlt : a.index < 4 := hr.arguments.placed.index_lt ha
      have hslot := hadds.get A hA
      rw [hhome { a with storage := st } hlt hindex rfl] at hslot
      exact ⟨a.operand, _, hget, hslot, .slot ha⟩
  obtain ⟨source, s2, p2, h, hread⟩ := hsource
  obtain ⟨dst, s3, hdst, hcopy⟩ := runs_bind.mp h
  have a3 := physReg_adds hdst
  obtain ⟨code, p4, -, hcode⟩ := materialize_path hcopy
  have p14 := ((p1.then p2).then a3.path).after p4
  refine ⟨id, code, p14, p4.values (a3.path.values (p2.values hbound)),
    fun A incoming n hA hr => ?_⟩
  have hA3 := p4.within hA
  obtain ⟨o, src, ho, hsrc, hreads⟩ :=
    hread A incoming n (a3.path.within hA3) (hr.path p1)
  obtain ⟨d, src', hd, hsrc', rfl⟩ := hcode A hA
  cases (a3.get A hA3).symm.trans hd
  cases hsrc.symm.trans hsrc'
  exact ⟨o, src, ho, hreads, rfl⟩

/-- A value, and how it is passed. -/
def PassedAs (A : Arena) (s : State) (incoming : List Incoming) (n : Nat) (v : ValueId)
    (x : Outgoing) : Prop :=
  ∃ id o, s.values.find? v = some id ∧ A.get? id = some o ∧
    ReadFrom incoming n x.storage o x.source

theorem PassedAs.path {x : Outgoing} (h : PassedAs A s incoming n v x)
    (hp : Path env s s' code) : PassedAs A s' incoming n v x := by
  obtain ⟨id, o, hv, ho, hread⟩ := h
  exact ⟨id, o, hp.values hv, ho, hread⟩

/-- Arguments are moved to their registers one after the other. -/
theorem bindArguments_code {regs : List PhysReg} (habi : env.abi = .win64)
    (hlen : args.length = storages.length) (hfits : args.length ≤ regs.length)
    (h : Runs (bindArguments args storages regs) env s u s') :
    ∃ code, Path env s s' code ∧
      ∀ (A : Arena) (incoming : List Incoming) (n : Nat), s'.Within A →
      Bindable env A incoming n s →
        ∃ xs, code = xs.map Outgoing.code ∧ xs.map Outgoing.reg <+: regs ∧
        xs.map Outgoing.storage = storages ∧
          List.Forall₂ (PassedAs A s' incoming n) args xs := by
  induction args generalizing storages regs s with
  | nil =>
    obtain ⟨-, rfl⟩ := runs_pure.mp h
    obtain rfl := List.length_eq_zero_iff.mp hlen.symm
    exact ⟨[], .refl s, fun _ _ _ _ _ => ⟨[], rfl, List.nil_prefix, rfl, .nil⟩⟩
  | cons v args ih =>
    match storages, regs with
    | st :: storages, reg :: regs =>
      simp only [bindArguments, runs_bind] at h
      obtain ⟨_, t, hbind, h⟩ := h
      obtain ⟨id, code, p1, hbound, hcode⟩ := bindArgument_code habi hbind
      obtain ⟨code', p2, hcode'⟩ :=
        ih (Nat.succ.inj hlen) (Nat.le_of_succ_le_succ hfits) h
      refine ⟨code ++ code', p1.trans p2, fun A incoming n hA hr => ?_⟩
      obtain ⟨o, src, ho, hread, rfl⟩ := hcode A incoming n (p2.within hA) hr
      obtain ⟨xs, rfl, hregs, hstorages, hxs⟩ := hcode' A incoming n hA (hr.path p1)
      refine ⟨⟨reg, st, src⟩ :: xs, rfl, List.cons_prefix_cons.mpr ⟨rfl, hregs⟩, ?_,
        .cons ?_ hxs⟩
      · rw [List.map_cons, hstorages]
      · exact ⟨id, o, p2.values hbound, ho, hread⟩
    | [], _ => cases hlen
    | _ :: _, [] => cases hfits

/-- What a call answers with: nothing, or the register that its result is copied to. -/
inductive ResultIn (A : Arena) (st : Storage) :
    Option OperandId → Option (VReg × Storage) → Prop
  | nothing (void : st = .void) : ResultIn A st none none
  | result {id : OperandId} {r : VReg} (value : st ≠ .void)
      (register : A.get? id = some ⟨.virt r, st⟩) :
      ResultIn A st (some id) (some (r, st))

namespace ResultIn

variable {result : Option OperandId} {out : Option (VReg × Storage)}

theorem eq_none (h : ResultIn A st result out) (hvoid : st = .void) : result = none := by
  cases h with
  | nothing => rfl
  | result value => exact absurd hvoid value

theorem exists_register (h : ResultIn A st result out) (hvalue : st ≠ .void) :
    ∃ id r, result = some id ∧ A.get? id = some ⟨.virt r, st⟩ ∧ out = some (r, st) := by
  cases h with
  | nothing void => exact absurd void hvalue
  | @result id r value register => exact ⟨id, r, rfl, register, rfl⟩

end ResultIn

theorem callResult_code (habi : env.abi = .win64)
    (h : Runs (callResult st) env s result s') :
    ∃ code, Path env s s' code ∧ ∀ A : Arena, s'.Within A →
      ∃ out, ResultIn A st result out ∧
      code = Machine.collect out := by
  unfold callResult at h
  split at h
  · next hvoid =>
    obtain ⟨rfl, rfl⟩ := runs_pure.mp h
    exact ⟨[], .refl s, fun _ _ => ⟨none, .nothing hvoid, rfl⟩⟩
  · next hvalue =>
    simp only [runs_bind, runs_theAbi, runs_pure] at h
    obtain ⟨_, _, ⟨rfl, rfl⟩, ret, s1, hret, dst, s2, hdst, _, s3, hmov, rfl, rfl⟩ := h
    rw [habi] at hret
    have a1 := physReg_adds hret
    obtain ⟨r, code, -, -, hpath, hcode⟩ := fill_path hdst hmov
    refine ⟨code, a1.path.after hpath, fun A hA => ?_⟩
    obtain ⟨o, ho, hget, rfl⟩ := hcode A hA
    cases (a1.get A (hpath.within hA)).symm.trans ho
    exact ⟨some (r, st), .result hvalue hget, rfl⟩

/--
What a call does between the saves and the reloads: bind the arguments, call, copy the
result out.
-/
theorem callBody_code {target : OperandId} (habi : env.abi = .win64)
    (hlen : args.length = storages.length)
    (hfits : args.length ≤ Abi.win64.argRegisters.length) (h : Runs (do
      bindArguments args storages Abi.win64.argRegisters
      emit .call [target]
      callResult st) env s result s') :
    ∃ code, Path env s s' code ∧
      ∀ (A : Arena) (incoming : List Incoming) (n : Nat), s'.Within A →
      Bindable env A incoming n s → ∃ xs o out, A.get? target = some o ∧
        code = xs.map Outgoing.code ++ ⟨.call, [o]⟩ :: Machine.collect out ∧
        xs.map Outgoing.reg <+: Abi.win64.argRegisters ∧
          xs.map Outgoing.storage = storages ∧
        List.Forall₂ (PassedAs A s' incoming n) args xs ∧ ResultIn A st result out := by
  simp only [runs_bind] at h
  obtain ⟨_, s1, hbind, _, s2, hemit, hresult⟩ := h
  obtain ⟨binds, p1, hbinds⟩ := bindArguments_code habi hlen hfits hbind
  obtain ⟨os, p2, -, -, hos⟩ := emit_path hemit
  obtain ⟨copy, p3, hcopy⟩ := callResult_code habi hresult
  refine ⟨binds ++ ([⟨.call, os⟩] ++ copy), p1.trans (p2.trans p3),
    fun A incoming n hA hr => ?_⟩
  have hA2 := p3.within hA
  obtain ⟨xs, rfl, hregs, hstorages, hpassed⟩ := hbinds A incoming n (p2.within hA2) hr
  obtain ⟨o, ho, rfl⟩ := mapM_single.mp (hos A hA2)
  obtain ⟨out, hout, rfl⟩ := hcopy A hA
  exact ⟨xs, o, out, ho, rfl, hregs, hstorages, hpassed.imp fun v x hx =>
    hx.path (p2.trans p3), hout⟩

/-- All incoming arguments live in argument registers. -/
theorem savedIn_argRegisters (hp : Machine.Placed incoming) :
    savedIn Abi.win64.argRegisters incoming = incoming :=
  List.filter_eq_self.mpr fun _ ha => List.contains_iff_mem.mpr (hp.reg_mem ha)

/-- Arguments are passed at the classes of their types. -/
theorem forall₂_argumentStorages {m : IR.Module} {sts : List Storage}
    (h : argumentStorages m args = .ok sts) :
    List.Forall₂ (fun v st => ∃ ty, m.valueTy v = .ok ty ∧
      storageOf ty = .ok st) args sts := by
  induction args generalizing sts with
  | nil =>
    cases h
    exact .nil
  | cons v args ih =>
    simp only [argumentStorages, List.mapM_cons, bind_eq_ok, pure_eq_ok] at h
    obtain ⟨st, ⟨ty, hty, hst⟩, sts, hsts, rfl⟩ := h
    exact .cons ⟨ty, hty,
      storageOf_of_scalarStorage (scalarStorage_of_byValueStorage hst)⟩ (ih hsts)

/-- A call of a value with arguments, as a sequence of code. -/
structure Sequences (env : Env) (A : Arena) (s s' : State) (incoming : List Incoming)
    (callee : ValueId) (args : List ValueId) (ret : Storage) (result : Option OperandId)
    (q : CallSequence) :
    Prop where
  callee : ∃ id o, s'.values.find? callee = some id ∧ A.get? id = some o ∧
    q.Formed s.vregs o
  saved : q.saved = incoming
  storages : argumentStorages env.module args = .ok (q.outgoing.map Outgoing.storage)
  arguments : List.Forall₂ (PassedAs A s' incoming s.vregs) args q.outgoing
  result : ResultIn A ret result q.result

theorem lowerCall_sequence {i : Inst} (habi : env.abi = .win64)
    (hops : i.operands = callee :: args) (h : Runs (lowerCall i) env s result s') :
    ∃ code ret, Path env s s' code ∧ storageOf i.ty = .ok ret ∧
      ∀ (A : Arena) (incoming : List Incoming), s'.Within A →
        Bindable env A incoming s.vregs s →
        ∃ q : CallSequence, code = q.code ∧
          Sequences env A s s' incoming callee args ret result q := by
  simp only [lowerCall, runs_bind, runs_theAbi, hops] at h
  obtain ⟨_, _, ⟨rfl, rfl⟩, h⟩ := h
  rw [habi] at h
  split at h
  · cases (runs_check.mp h).1
  · next hlimit =>
    have hfits : args.length ≤ Abi.win64.argRegisters.length := Nat.not_lt.mp hlimit
    simp only [runs_bind, runs_sourceModule, runs_check, runs_checkWord] at h
    obtain ⟨_, _, ⟨rfl, rfl⟩, storages, _, ⟨hstorages, rfl⟩, ret, _, ⟨hret, rfl⟩, target,
      s1, htarget, bytes, _, ⟨-, rfl⟩, _, s2, hreserve, hcall⟩ := h
    have hlen := (forall₂_argumentStorages hstorages).length_eq
    obtain ⟨root, fetch, p1, hroot, hfetch⟩ := callTarget_code htarget
    obtain ⟨c, f, hc, hf, rfl⟩ := runs_change.mp hreserve
    obtain rfl := pure_eq_ok.mp hf
    have p2 : Path env s1 (s1.withMachine c (c.machine.reserveCallStack bytes)) [] :=
      .step (.reserve hc)
    obtain ⟨t, u, pre, post, p3, hrun, p5, -, -, hpreserving⟩ :=
      preserving_path habi hcall fun t u _ hrun => by
      obtain ⟨code, hpath, -⟩ := callBody_code habi hlen hfits hrun
      exact ⟨code, hpath⟩
    obtain ⟨body, p4, hbody⟩ := callBody_code habi hlen hfits hrun
    refine ⟨fetch ++ pre ++ (body ++ post), ret,
      ((p1.then p2).trans p3).trans (p4.trans p5),
      storageOf_of_scalarStorage (scalarStorage_of_byValueStorage hret),
      fun A incoming hA hr => ?_⟩
    have hA4 := p5.within hA
    have hA1 := p2.within (p3.within (p4.within hA4))
    have hr1 := hr.path p1
    have hr2 := hr1.path p2
    obtain ⟨rfl, rfl⟩ := hpreserving A incoming hA hr2.arguments
    obtain ⟨xs, target', out, hx, rfl, hregs, rfl, hpassed, hout⟩ :=
      hbody A incoming s.vregs hA4 (hr2.path p3)
    obtain ⟨o, _, ho, htarget', hf, hform⟩ := hfetch A hA1
    cases htarget'.symm.trans hx
    obtain ⟨hmem, haddress⟩ := hr1.place hA1 hroot ho
    have hkind : target'.isTarget = true := by
      rcases hform with htarget | ⟨a, ha⟩
      · exact htarget
      · exact absurd ha (hmem a)
    refine ⟨⟨fetch, incoming, xs, target', out⟩, ?_, ⟨root, o, ?_, ho, ?_⟩, rfl,
      hstorages, ?_, hout⟩
    · simp only [savedIn_argRegisters hr.arguments.placed, CallSequence.code,
        CallSequence.before, CallSequence.after, List.append_assoc, List.cons_append]
    · exact p5.values (p4.values (p3.values (p2.values hroot)))
    · refine ⟨hr.arguments.placed, ⟨_, hf⟩, hkind, haddress, hregs, ?_⟩
      intro x hx
      obtain ⟨v, -, _, o, -, -, hread⟩ := exists_left_of_forall₂ hpassed x hx
      exact ⟨o, hread⟩
    · exact hpassed.imp fun v x hx => hx.path p5

/-- An argument, with its register and its class. -/
theorem Sequences.passed {ret : Storage} {q : CallSequence}
    (hq : Sequences env A s s' incoming callee args ret result q)
    (hv : args[j]? = some v) :
    ∃ x ∈ q.outgoing, Abi.win64.argRegisters[j]? = some x.reg ∧
      (∃ ty, env.module.valueTy v = .ok ty ∧ storageOf ty = .ok x.storage) ∧
      PassedAs A s' incoming s.vregs v x := by
  obtain ⟨-, o, -, -, hformed⟩ := hq.callee
  obtain ⟨rest, hregs⟩ := hformed.regs
  have hstorages := List.forall₂_map_right_iff.mp (forall₂_argumentStorages hq.storages)
  obtain ⟨hj, rfl⟩ := List.getElem?_eq_some_iff.mp hv
  have hj' : j < q.outgoing.length := hq.arguments.length_eq ▸ hj
  refine ⟨q.outgoing[j], List.getElem_mem hj', ?_, hstorages.get hj hj',
    hq.arguments.get hj hj'⟩
  rw [← hregs, List.getElem?_append_left (by rwa [List.length_map]), List.getElem?_map,
    List.getElem?_eq_getElem hj', Option.map_some]

/-! ## Calls -/

/-- The operand that a value is bound to. -/
def State.Locates (s : State) (v : ValueId) (o : Operand) : Prop :=
  ∃ id, s.values.find? v = some id ∧ s.Holds id o

theorem State.Locates.unique {o' : Operand} (h : s.Locates v o) (h' : s.Locates v o') :
    o = o' := by
  obtain ⟨id, hid, ho⟩ := h
  obtain ⟨id', hid', ho'⟩ := h'
  cases hid.symm.trans hid'
  exact ho.unique ho'

theorem holds_of_arena {hsmall : c.machine.operands.size ≤ 2 ^ 32}
    (hc : s.current = some c) (h : (c.arena hsmall).get? id = some o) : s.Holds id o :=
  ⟨c, hc, operand_eq_ok.mp (operand_of_arena h)⟩

/--
The code of a call makes one call. When it is made, the register of each argument holds
the value that the argument had before the code, and the call goes to where the callee was
before the code. Behind the code, the result is what the callee left in the return
register.
-/
theorem lowerCall_binds {func : IR.FuncId} {f : IR.Function} {i : Inst} {callee : ValueId}
    {args : List ValueId} {result : Option OperandId} {c : Current}
    (habi : env.abi = .win64) (hfunc : env.module.function func = .ok f)
    (hdef : f.isExternal = false) (hs : Reached env func s)
    (hops : i.operands = callee :: args) (hrun : Runs (lowerCall i) env s result s')
    (hc : s'.current = some c) (hsmall : c.machine.operands.size ≤ 2 ^ 32)
    (hwidths : ∀ v ∈ args, ∀ ty st o, env.module.valueTy v = .ok ty →
      storageOf ty = .ok st →
      s'.Locates v o → o.width = st.width) :
    ∃ insts before target after, Gains s s' insts ∧
      c.machine.decode insts = some (before ++ ⟨.call, [target]⟩ :: after) ∧
      (∀ x ∈ before ++ after, x.op ≠ .call) ∧
      ∀ (h : Host) (σ : Cpu), ∃ τ ρ, h.run before σ = some (.falls τ) ∧
        h.run after (h.afterCall τ target) = some (.falls ρ) ∧
        (∀ (j : Nat) (v : ValueId), args[j]? = some v →
          ∃ r ty st o, Abi.win64.argRegisters[j]? = some r ∧
          env.module.valueTy v = .ok ty ∧ storageOf ty = .ok st ∧ s'.Locates v o ∧
          (τ.phys r).setWidth st.width = (h.value σ o).setWidth st.width) ∧
        (∃ o, s'.Locates callee o ∧
          (h.target τ target).setWidth o.width = (h.value σ o).setWidth o.width) ∧
        ∃ ret, storageOf i.ty = .ok ret ∧ (ret = .void → result = none) ∧
          (ret ≠ .void → ∃ id o, result = some id ∧ s'.Holds id o ∧ o.storage = ret ∧
            (h.read ρ o).setWidth ret.width =
              ((h.afterCall τ target).phys Abi.win64.returnRegister).setWidth
                ret.width) := by
  obtain ⟨sts, d, hsession⟩ := hs.session habi hfunc hdef
  obtain ⟨code, ret, hpath, hret, hcode⟩ := lowerCall_sequence habi hops hrun
  have hA := within_arena hc hsmall
  have hready : Bindable env (c.arena hsmall) (incoming sts) s.vregs s :=
    ⟨⟨d, hsession.current⟩, hsession.arguments (hpath.within hA), hs.lodged⟩
  obtain ⟨q, rfl, hq⟩ := hcode _ _ hA hready
  obtain ⟨root, callee', hroot, hcallee, hformed⟩ := hq.callee
  obtain ⟨insts, hgains, hdecodes⟩ := hpath.gains hc
  refine ⟨insts, q.before, q.target, q.after, hgains,
    Machine.Function.decode_eq_some.mpr hdecodes, hformed.not_call, fun h σ => ?_⟩
  obtain ⟨τ, hbefore, htarget, hbound⟩ := hformed.run_before h σ
  obtain ⟨ρ, hafter, hresult⟩ := hformed.run_after h (h.afterCall τ q.target)
  refine ⟨τ, ρ, hbefore, hafter,
    fun j v hv => ?_, ⟨callee', ⟨root, hroot, holds_of_arena hc hcallee⟩, htarget⟩,
    ret, hret, hq.result.eq_none, fun hvalue => ?_⟩
  · obtain ⟨x, hx, hreg, ⟨ty, hty, hst⟩, id, o, hid, ho, hread⟩ := hq.passed hv
    have hlocates : s'.Locates v o := ⟨id, hid, holds_of_arena hc ho⟩
    have hwidth := hwidths v (List.mem_of_getElem? hv) ty x.storage o hty hst hlocates
    exact ⟨x.reg, ty, x.storage, o, hreg, hty, hst, hlocates,
      hbound x hx o (hq.saved ▸ hread) hwidth⟩
  · obtain ⟨id, r, hid, hregister, hout⟩ := hq.result.exists_register hvalue
    exact ⟨id, ⟨.virt r, ret⟩, hid, holds_of_arena hc hregister, rfl, hresult r ret hout⟩

/-! ## A call through an argument -/

/-- A call of the first parameter with the third, the second, the first and a constant. -/
def relay : Inst := ⟨.call, [⟨1⟩, ⟨3⟩, ⟨2⟩, ⟨1⟩, ⟨5⟩], .int .w32, ⟨0⟩, ⟨6⟩⟩

/--
`f(p, x, y)` calls `p` with `y`, `x`, `p` and 5: two registers change places, and the
callee is in one.
-/
def relaying : IR.Module where
  name := "m"
  values := #[⟨.ptr (.function [.ptr (.int .w8), .int .w32, .int .w64] (.int .w32) false),
    .function ⟨0⟩⟩,
    ⟨.ptr (.int .w8), .argument ⟨0⟩ 0⟩, ⟨.int .w32, .argument ⟨0⟩ 1⟩,
    ⟨.int .w64, .argument ⟨0⟩ 2⟩,
    ⟨.void, .block ⟨0⟩⟩, ⟨.int .w16, .constant (.int 5)⟩, ⟨.int .w32, .instruction ⟨0⟩⟩]
  insts := #[relay]
  blocks := #[⟨⟨0⟩, none, [⟨0⟩], ⟨4⟩⟩]
  functions :=
    #[⟨"f", ⟨[.ptr (.int .w8), .int .w32, .int .w64], .int .w32, false⟩, [⟨1⟩, ⟨2⟩, ⟨3⟩],
      [⟨0⟩], false,
    ⟨0⟩⟩]
  globals := #[]

theorem State.locates_of_binds (h : s.binds v o = true) : s.Locates v o := by
  obtain ⟨id, hid, ho, -⟩ := State.exists_of_binds h
  exact ⟨id, hid, ho⟩

/-- When `p` is called, it and `y` have changed places. -/
theorem relaying_binds :
    ∃ s s' c result, Reached ⟨relaying, .win64⟩ ⟨0⟩ s ∧
      Runs (lowerCall relay) ⟨relaying, .win64⟩ s result s' ∧
      s'.current = some c ∧ c.machine.operands.size ≤ 2 ^ 32 ∧
      (∀ v ∈ [(⟨3⟩ : ValueId), ⟨2⟩, ⟨1⟩, ⟨5⟩], ∀ ty st o, relaying.valueTy v = .ok ty →
        storageOf ty = .ok st →
        s'.Locates v o → o.width = st.width) ∧
      ∃ insts before target after, Gains s s' insts ∧
        c.machine.decode insts = some (before ++ ⟨.call, [target]⟩ :: after) ∧
        ∀ (h : Host) (σ : Cpu), ∃ τ ρ, h.run before σ = some (.falls τ) ∧
          h.run after (h.afterCall τ target) = some (.falls ρ) ∧
          (τ.phys .rcx).setWidth 64 = (σ.phys .r8).setWidth 64 ∧
          (τ.phys .rdx).setWidth 32 = (σ.phys .rdx).setWidth 32 ∧
          (τ.phys .r8).setWidth 64 = (σ.phys .rcx).setWidth 64 ∧
            (τ.phys .r9).setWidth 16 = 5 ∧
          (h.target τ target).setWidth 64 = (σ.phys .rcx).setWidth 64 := by
  obtain ⟨s, hs, hleaves⟩ := reached_of_enters
    (show enters ⟨relaying, .win64⟩ ⟨0⟩ ⟨0⟩ (fun s =>
      leaves (lowerCall relay) ⟨relaying, .win64⟩ s fun _ s =>
        s.binds ⟨1⟩ ⟨.phys .rcx, .ptr⟩ && s.binds ⟨2⟩ ⟨.phys .rdx, .i32⟩ &&
          s.binds ⟨3⟩ ⟨.phys .r8, .i64⟩ &&
          s.binds ⟨5⟩ ⟨.imm 5, .i16⟩) = true by decide +kernel)
  obtain ⟨result, s', hrun, htest⟩ := runs_of_leaves hleaves
  simp only [Bool.and_eq_true] at htest
  obtain ⟨⟨⟨hp, hx⟩, hy⟩, hfive⟩ := htest
  obtain ⟨_, -, ⟨c, hc, -⟩, hsmall⟩ := State.exists_of_binds hp
  replace hp := State.locates_of_binds hp
  replace hx := State.locates_of_binds hx
  replace hy := State.locates_of_binds hy
  replace hfive := State.locates_of_binds hfive
  have hwidths : ∀ v ∈ [(⟨3⟩ : ValueId), ⟨2⟩, ⟨1⟩, ⟨5⟩], ∀ ty st o,
    relaying.valueTy v = .ok ty →
      storageOf ty = .ok st → s'.Locates v o → o.width = st.width := by
    intro v hv ty st o hty hst ho
    simp only [List.mem_cons, List.not_mem_nil, or_false] at hv
    rcases hv with rfl | rfl | rfl | rfl
    · cases hy.unique ho
      cases hty
      cases hst
      rfl
    · cases hx.unique ho
      cases hty
      cases hst
      rfl
    · cases hp.unique ho
      cases hty
      cases hst
      rfl
    · cases hfive.unique ho
      cases hty
      cases hst
      rfl
  obtain ⟨insts, before, target, after, hgains, hdecode, -, hmeaning⟩ :=
    @lowerCall_binds ⟨relaying, .win64⟩ s s' ⟨0⟩ _ relay ⟨1⟩ [⟨3⟩, ⟨2⟩, ⟨1⟩, ⟨5⟩] result c
      rfl rfl rfl hs rfl hrun hc (hsmall c hc) hwidths
  refine ⟨s, s', c, result, hs, hrun, hc, hsmall c hc, hwidths, insts, before, target,
    after, hgains, hdecode, fun h σ => ?_⟩
  obtain ⟨τ, ρ, hbefore, hafter, hargs, ⟨o, ho, htarget⟩, -⟩ := hmeaning h σ
  have hvalue :
    ∀ (j : Nat) (v : ValueId) (o : Operand) (ty : IR.Ty) (st : Storage) (r : PhysReg),
      [(⟨3⟩ : ValueId), ⟨2⟩, ⟨1⟩, ⟨5⟩][j]? = some v →
      Abi.win64.argRegisters[j]? = some r →
      relaying.valueTy v = .ok ty → storageOf ty = .ok st → s'.Locates v o →
      (τ.phys r).setWidth st.width = (h.value σ o).setWidth st.width := by
    intro j v o ty st r hv hr hty hst ho
    obtain ⟨r', ty', st', o', hr', hty', hst', ho', heq⟩ := hargs j v hv
    cases hr.symm.trans hr'
    cases hty.symm.trans hty'
    cases hst.symm.trans hst'
    cases ho.unique ho'
    exact heq
  cases hp.unique ho
  exact ⟨τ, ρ, hbefore, hafter, hvalue 0 _ _ _ _ _ rfl rfl rfl rfl hy,
    hvalue 1 _ _ _ _ _ rfl rfl rfl rfl hx,
    hvalue 2 _ _ _ _ _ rfl rfl rfl rfl hp, hvalue 3 _ _ _ _ _ rfl rfl rfl rfl hfive,
    htarget⟩

end InstSelect.Lowering
