import Mathlib.Algebra.BigOperators.Group.List.Lemmas
import InstSelect.Proofs.MovingBlocks

/-!
# Fan-out of phis

The pass that places the copies of phis regroups them by predecessor and inserts them one
by one, each before what is then the first terminator of its block. What it comes to is
told here block by block and phi by phi. Blocks keep their code and gain one run of
copies. A phi with `n` pairs has its register written `n` times, once for each pair and in
the block of the pair's predecessor; temporaries have other registers.
-/

namespace InstSelect.Machine

/-! ## Registers that copies write -/

namespace Function

variable {m : Function} {i : Inst} {r : VReg}

/-- The virtual register that an instruction of a function writes. -/
def written? (m : Function) (i : Inst) : Option VReg :=
  if i.op.writes then (i.operands.head?.bind fun id => m.operands[id.index.toNat]?).bind
    Operand.virt? else none

theorem written?_eq_some : m.written? i = some r ↔ m.Writes i r := by
  unfold written? Writes
  split
  · next hwrites =>
    simp only [hwrites, true_and, Option.bind_eq_some_iff, Operand.virt?_eq_some,
      Option.mem_def]
    constructor
    · rintro ⟨o, ⟨id, hid, ho⟩, hform⟩
      exact ⟨id, hid, o, ho, hform⟩
    · rintro ⟨id, hid, o, ho, hform⟩
      exact ⟨o, ⟨id, hid, ho⟩, hform⟩
  · next hwrites => simp [hwrites]

/-- Instructions that make moves write the destinations of the moves. -/
theorem Decodes.written {insts : List Inst} {moves : List Move}
    (h : m.Decodes insts (moves.map Move.code)) :
    insts.filterMap m.written? = moves.map Move.dst := by
  induction moves generalizing insts with
  | nil =>
    cases h
    rfl
  | cons x moves ih =>
    obtain ⟨i, insts, ⟨hop, hoperands⟩, hrest, rfl⟩ := List.forall₂_cons_right_iff.mp h
    have hwrites : x.code.Writes x.dst := by
      refine ⟨⟨.virt x.dst, x.storage⟩, ?_, rfl⟩
      unfold Move.code Code.dst? Operand.copyOp
      split
      · rfl
      · rfl
    rw [List.filterMap_cons_some
      (written?_eq_some.mpr (Operands.writes_inst hoperands hop hwrites)), ih hrest]
    rfl

end Function

end InstSelect.Machine

namespace InstSelect.Lowering

open IR (InstId)
open Machine (Operand VReg Move withCopies)

variable {env : Env} {func : IR.FuncId} {s s' : State} {c c' : Current}
  {m : Machine.Function} {n n' : Nat} {α β : Type} {xs : List Copy}
  {writes : List VReg} {seg : Segment}

/-! ## The registers of phis -/

/-- Different phis have different registers. -/
theorem Threaded.phi_apart {segs : List Segment} (h : Threaded env m n segs n') :
    segs.Pairwise fun x y => ∀ r, PhiAt env m x r → ¬ PhiAt env m y r := by
  induction h with
  | nil => exact .nil
  | phi inst opcode empty bound register number after rest ih =>
    refine List.pairwise_cons.mpr ⟨fun y hy r hr hr' => ?_, ih⟩
    have hhere :=
      (Threaded.phi inst opcode empty bound register number after (.nil _)).phi_number
      (List.mem_singleton.mpr rfl) hr
    have hlater := rest.phi_number hy hr'
    omega
  | code inst opcode decodes tidy after rest ih =>
    refine List.pairwise_cons.mpr ⟨fun y hy r hr _ => ?_, ih⟩
    obtain ⟨j, -, -, hj, hphi, -⟩ := hr
    cases inst.symm.trans hj
    exact opcode hphi

/-- The writes that one phi asks for. -/
structure Fan where
  reg : VReg
  /-- One copy for each pair, with the block that it is for. -/
  entries : List Entry

variable {x : Fan} {fans : List Fan}

/--
A phi has a register, and asks for one copy to it for each of its pairs, in their order.
-/
def Fan.Of (env : Env) (s : State) (m : Machine.Function) (k : InstId) (x : Fan) : Prop :=
  ∃ i dst st pairs, env.module.inst k = .ok i ∧ i.opcode = .phi ∧
    i.phiIncoming = .ok pairs ∧
    s.values.find? i.value = some dst ∧
    m.operands[dst.index.toNat]? = some ⟨.virt x.reg, st⟩ ∧
    List.Forall₂ (Collects env s dst) pairs x.entries

/-- The copies for one block, in the order of the phis and of their pairs. -/
def copiesFor (fans : List Fan) (mb : Machine.BlockId) : List Copy :=
  ((fans.flatMap Fan.entries).filter (·.1 = mb)).map Prod.snd

/--
The writes of phis' registers in one block, in the order of the phis and of their pairs.
-/
def writesFor (fans : List Fan) (mb : Machine.BlockId) : List VReg :=
  fans.flatMap fun x => List.replicate (x.entries.countP (·.1 = mb)) x.reg

theorem forall₂_replicate {R : α → β → Prop} {xs : List α} {y : β} (h : ∀ x ∈ xs, R x y) :
    List.Forall₂ R xs (List.replicate xs.length y) := by
  induction xs with
  | nil => exact .nil
  | cons x xs ih =>
    obtain ⟨hx, hxs⟩ := List.forall_mem_cons.mp h
    exact .cons hx (ih hxs)

/-- Each copy for a block is one write of a phi's register. -/
theorem forall₂_copiesFor {ks : List InstId} (h : List.Forall₂ (Fan.Of env s m) ks fans)
    (mb : Machine.BlockId) :
    List.Forall₂ (fun x r => r ∈ fans.map Fan.reg ∧
      ∃ st, m.operands[x.dst.index.toNat]? = some ⟨.virt r, st⟩)
      (copiesFor fans mb) (writesFor fans mb) := by
  induction h with
  | nil => exact .nil
  | @cons k x ks fans hx _ ih =>
    obtain ⟨i, dst, st, pairs, -, -, -, -, hdst, hentries⟩ := hx
    rw [copiesFor, List.flatMap_cons, List.filter_append, List.map_append, writesFor,
      List.flatMap_cons]
    refine List.rel_append ?_ (ih.imp fun _ _ hrest =>
      ⟨List.mem_cons_of_mem _ hrest.1, hrest.2⟩)
    rw [List.countP_eq_length_filter, ← List.length_map (f := Prod.snd)]
    refine forall₂_replicate fun y hy => ⟨List.mem_cons_self, st, ?_⟩
    obtain ⟨e, he, rfl⟩ := List.mem_map.mp hy
    obtain ⟨-, -, -, -, -, rfl, -⟩ :=
      exists_left_of_forall₂ hentries e (List.mem_of_mem_filter he)
    exact hdst

/-- A phi's register is written in a block as often as the phi has pairs from there. -/
theorem count_writesFor (hnodup : (fans.map Fan.reg).Nodup) (hx : x ∈ fans)
    (mb : Machine.BlockId) :
    (writesFor fans mb).count x.reg = x.entries.countP (·.1 = mb) := by
  induction fans with
  | nil => cases hx
  | cons y fans ih =>
    obtain ⟨hnew, hrest⟩ := List.nodup_cons.mp hnodup
    rw [writesFor, List.flatMap_cons, List.count_append]
    rcases List.mem_cons.mp hx with rfl | hx
    · have hnone : (writesFor fans mb).count x.reg = 0 := by
        refine List.count_eq_zero.mpr fun hmem => hnew ?_
        obtain ⟨y, hy, hreg⟩ := List.mem_flatMap.mp hmem
        exact List.eq_of_mem_replicate hreg ▸ List.mem_map_of_mem hy
      rw [List.count_replicate_self]
      exact hnone ▸ Nat.add_zero _
    · have hne : y.reg ≠ x.reg := fun heq => hnew (heq ▸ List.mem_map_of_mem hx)
      rw [List.count_replicate, if_neg (by simpa using hne), Nat.zero_add]
      exact ih hrest hx

theorem map_dst_of_denotes {moves : List Move} (h : List.Forall₂ (Denotes m) xs moves)
    (hwrites : List.Forall₂ (fun x r => ∃ st,
      m.operands[x.dst.index.toNat]? = some ⟨.virt r, st⟩) xs writes) :
    moves.map Move.dst = writes := by
  induction h generalizing writes with
  | nil =>
    cases hwrites
    rfl
  | cons hx _ ih =>
    obtain ⟨r, writes, ⟨st, hr⟩, hrest, rfl⟩ := List.forall₂_cons_left_iff.mp hwrites
    have hsame := hx.dst.symm.trans hr
    rw [Option.some.injEq, Operand.mk.injEq, Machine.Form.virt.injEq] at hsame
    rw [List.map_cons, ih hrest, hsame.1]

section

variable (hc : s.current = some c) (hm : c.machine.operands.toList <+: m.operands.toList)
  (hsmall : m.operands.size ≤ 2 ^ 32)
include hc hm hsmall

/--
Of the registers below the temporaries, the copies of a block write those that they are
for, in order.
-/
theorem Placed.written {insts : List Machine.Inst} {regs : List VReg}
    (h : Placed s n xs insts) (hdst : Writable (fun o => ∃ r, o.form = .virt r) s xs)
    (hregs : ∀ r ∈ regs, r.index.toNat < n)
    (hwrites : List.Forall₂ (fun x r => r ∈ regs ∧
      ∃ st, m.operands[x.dst.index.toNat]? = some ⟨.virt r, st⟩)
      xs writes) : (insts.filterMap m.written?).filter (· ∈ regs) = writes := by
  have hmoved : ∀ {moves : List Move}, List.Forall₂ (Denotes m) xs moves →
      moves.map Move.dst = writes :=
    fun hmoves => map_dst_of_denotes hmoves (hwrites.imp fun _ _ hr => hr.2)
  have hall : writes.filter (· ∈ regs) = writes := by
    refine List.filter_eq_self.mpr fun r hr => ?_
    obtain ⟨x, -, hmem, -⟩ := exists_left_of_forall₂ hwrites r hr
    exact decide_eq_true hmem
  cases h with
  | direct free copies =>
    obtain ⟨moves, hmoves, hdecodes⟩ := copies.moves hc hm hsmall hdst
    rw [hdecodes.written, hmoved hmoves, hall]
  | @staged zs firsts seconds fresh nodup stands first second =>
    obtain ⟨ys, hys, hregisters, hfirsts, hseconds⟩ :=
      detours_moves hc hm hsmall stands first second hdst
    have hfirst : firsts.filterMap m.written? = zs.map Detour.register := by
      rw [hfirsts.written, List.map_map, ← hregisters]
      rfl
    have hsecond : seconds.filterMap m.written? = writes := by
      rw [hseconds.written, List.map_map, ← hmoved hys, List.map_map]
      rfl
    have hnone : (zs.map Detour.register).filter (· ∈ regs) = [] := by
      refine List.filter_eq_nil_iff.mpr fun r hr hmem => ?_
      obtain ⟨z, hz, rfl⟩ := List.mem_map.mp hr
      exact Nat.not_lt.mpr (fresh z hz) (hregs _ (of_decide_eq_true hmem))
    rw [List.filterMap_append, List.filter_append, hfirst, hsecond, hnone, hall,
      List.nil_append]

end

/-! ## Whole functions -/

/-- A list that corresponds to another one, item by item, and is mapped to a third. -/
theorem exists_forall₂_map {γ : Type} {R : α → β → Prop} {S : α → γ → Prop} {f : γ → β}
    {xs : List α} {ys : List β} (h : List.Forall₂ R xs ys)
    (hstep : ∀ x ∈ xs, ∀ y, R x y → ∃ z, S x z ∧ f z = y) :
    ∃ zs, List.Forall₂ S xs zs ∧ zs.map f = ys := by
  induction h with
  | nil => exact ⟨[], .nil, rfl⟩
  | cons hxy _ ih =>
    obtain ⟨hhead, htail⟩ := List.forall_mem_cons.mp hstep
    obtain ⟨z, hz, rfl⟩ := hhead _ hxy
    obtain ⟨zs, hzs, rfl⟩ := ih htail
    exact ⟨z :: zs, .cons hz hzs, rfl⟩

namespace Assembly

variable (A : Assembly env func s s') (hsmall : A.machine.operands.size ≤ 2 ^ 32)

theorem pendingPhis_eq_map :
    A.filled.pendingPhis =
      (A.segments.filter (isPhi env.module ·.inst)).map Segment.inst := by
  obtain ⟨c, -, hc, -, -, hpending, -⟩ := A.filling_code
  rw [A.filling.pending hc, hpending, List.nil_append, List.filter_map]
  rfl

include hsmall

/-- The register of a fan is the one that its phi was given. -/
theorem phiAt_of_fan (hseg : seg ∈ A.segments)
    (hx : Fan.Of env A.copied A.machine seg.inst x) :
    PhiAt env A.machine seg x.reg := by
  obtain ⟨i, dst, st, pairs, hi, hphi, -, hv, hdst, -⟩ := hx
  obtain ⟨dst', r, st', hv', hdst', -, hat⟩ := A.phi_located hsmall hseg hi hphi
  cases hv.symm.trans hv'
  cases hdst.symm.trans hdst'
  exact hat

theorem exists_fan {entries : List Entry} (hseg : seg ∈ A.segments)
    (hphi : isPhi env.module seg.inst = true)
    (hentries : CollectsPhi env A.copied seg.inst entries) :
    ∃ x : Fan, Fan.Of env A.copied A.machine seg.inst x ∧ x.entries = entries := by
  obtain ⟨i, dst, pairs, hi, hv, hpairs, hforall⟩ := hentries
  have hop : i.opcode = .phi := by simpa [isPhi, hi] using hphi
  obtain ⟨dst', r, st, hv', hdst, -⟩ := A.phi_located hsmall hseg hi hop
  cases hv.symm.trans hv'
  exact ⟨⟨r, entries⟩, ⟨i, dst, st, pairs, hi, hop, hpairs, hv, hdst, hforall⟩, rfl⟩

/--
The fans of a function: their registers are different and older than all temporaries.
-/
theorem exists_fans :
    ∃ fans : List Fan, List.Forall₂ (Fan.Of env A.copied A.machine)
      A.filled.pendingPhis fans ∧
      (fans.map Fan.reg).Nodup ∧
        (∀ r ∈ fans.map Fan.reg, r.index.toNat < A.filled.vregs) ∧
      ∀ mb, Placed A.copied A.filled.vregs (copiesFor fans mb) (A.copies mb) := by
  obtain ⟨groups, hgroups, hplaced⟩ := A.collected
  have hthreaded := A.threaded hsmall
  have hmem : ∀ seg ∈ A.segments.filter (isPhi env.module ·.inst), seg ∈ A.segments :=
    fun seg hseg =>
    List.mem_of_mem_filter hseg
  rw [A.pendingPhis_eq_map, List.forall₂_map_left_iff] at hgroups
  obtain ⟨fans, hfans, rfl⟩ := exists_forall₂_map hgroups fun seg hseg entries =>
    A.exists_fan hsmall (hmem seg hseg) (List.mem_filter.mp hseg).2
  refine ⟨fans, ?_, ?_, ?_, ?_⟩
  · rw [A.pendingPhis_eq_map, List.forall₂_map_left_iff]
    exact hfans
  · refine List.pairwise_map.mpr
      (pairwise_of_forall₂ hfans (hthreaded.phi_apart.filter _) ?_)
    intro seg hseg seg' hseg' x x' hx hx' hapart heq
    have hat := A.phiAt_of_fan hsmall (hmem seg hseg) hx
    have hat' := A.phiAt_of_fan hsmall (hmem seg' hseg') hx'
    exact hapart _ hat (heq ▸ hat')
  · refine List.forall_mem_map.mpr fun x hx => ?_
    obtain ⟨seg, hseg, hx⟩ := exists_left_of_forall₂ hfans x hx
    exact (hthreaded.phi_number (hmem seg hseg)
      (A.phiAt_of_fan hsmall (hmem seg hseg) hx)).2
  · intro mb
    have hmb := hplaced mb
    rwa [← List.flatMap_def] at hmb

end Assembly

/-- What the pass over the phis does to the blocks of a function. -/
structure FanOut (env : Env) (s s' : State) (c c' : Current) (fans : List Fan)
    (copies : Machine.BlockId → List Machine.Inst) : Prop where
  /-- The phis that waited, each with a register and its pairs. -/
  phis : List.Forall₂ (Fan.Of env s' c'.machine) s.pendingPhis fans
  registers : (fans.map Fan.reg).Nodup
  layout : c'.machine.layout = c.machine.layout
  names : ∀ k : Nat, c'.machine.blocks[k]?.map (·.name) =
    c.machine.blocks[k]?.map (·.name)
  /--
  A block is its old code with one run of copies, right before its first terminator.
  -/
  blocks : ∀ (mb : Machine.BlockId) (b : Machine.Block),
    c.machine.blocks[mb.index.toNat]? = some b →
    ∃ before after, b.insts = before ++ after ∧
    (∀ i ∈ before, i.op.isTerminator = false) ∧
      (∀ i ∈ after.head?, i.op.isTerminator = true) ∧
      c'.machine.blocks[mb.index.toNat]? =
      some { b with insts := before ++ copies mb ++ after }
  ops : ∀ mb, ∀ i ∈ copies mb, i.op = .mov ∨ i.op = .lea
  /-- Which copies a run makes: one instruction for each, or two by way of a temporary. -/
  runs : ∀ mb, Placed s' s.vregs (copiesFor fans mb) (copies mb)
  /-- Phis' registers are written in the order of the phis and of their pairs. -/
  order : ∀ mb, ((copies mb).filterMap c'.machine.written?).filter
    (· ∈ fans.map Fan.reg) = writesFor fans mb
  /-- In each block, a phi's register is written once for each pair from there. -/
  perBlock : ∀ x ∈ fans, ∀ mb,
    (copies mb).countP (c'.machine.written? · = some x.reg) = x.entries.countP (·.1 = mb)
  /-- Altogether, a phi's register is written once for each pair. -/
  total : ∀ x ∈ fans, ((x.entries.map Prod.fst).dedup.map fun mb =>
    (copies mb).countP (c'.machine.written? · = some x.reg)).sum = x.entries.length

/-- The code around the point where copies go. -/
theorem withCopies_split (copies insts : List Machine.Inst) :
    ∃ before after, insts = before ++ after ∧ (∀ i ∈ before, i.op.isTerminator = false) ∧
      (∀ i ∈ after.head?, i.op.isTerminator = true) ∧
        withCopies copies insts = before ++ copies ++ after := by
  refine ⟨_, _, (List.takeWhile_append_dropWhile).symm, fun i hi => ?_,
    fun i hi => ?_, rfl⟩
  · have hstays := List.all_eq_true.mp List.all_takeWhile i hi
    exact (Bool.not_eq_true' _).mp hstays
  · have hleaves :=
      List.head?_dropWhile_not (fun i : Machine.Inst => !i.op.isTerminator) insts
    rw [Option.mem_def.mp hi] at hleaves
    exact (Bool.not_eq_false' _).mp hleaves

/-- Writes that are counted by block add up to all of them. -/
theorem sum_of_perBlock {count : Machine.BlockId → Nat}
    (h : ∀ mb, count mb = x.entries.countP (·.1 = mb)) :
    ((x.entries.map Prod.fst).dedup.map count).sum = x.entries.length := by
  have hcount : count = fun mb => (x.entries.map Prod.fst).count mb := by
    funext mb
    rw [h, List.count, List.countP_map]
    exact List.countP_congr fun e _ => by simp
  rw [hcount, List.sum_map_count_dedup_eq_length, List.length_map]

namespace Assembly

variable (A : Assembly env func s s') (hc : A.filled.current = some c)
  (hc' : A.copied.current = some c')
include hc hc'

/-- What becomes of a block. -/
theorem block_of_filled {mb : Machine.BlockId} {b : Machine.Block}
    (hsmall : c'.machine.operands.size ≤ 2 ^ 32)
    (hb : c.machine.blocks[mb.index.toNat]? = some b) :
    c'.machine.blocks[mb.index.toNat]? =
      some { b with insts := withCopies (A.copies mb) b.insts } := by
  have hplaced := A.placed mb
  obtain ⟨d, hd, hnames⟩ := A.placing_any.blocks (.of_current hc' hsmall) c hc
  cases hc'.symm.trans hd
  have hname := hnames mb.index.toNat
  rw [hb, Option.map_some] at hname
  obtain ⟨b', hb', hname⟩ := Option.map_eq_some_iff.mp hname
  simp only [State.instsOf, hc, hc', Option.bind_some, hb, hb', Option.map_some,
    Option.getD_some] at hplaced
  rw [hb', ← hplaced, ← hname]

/-- The pass over the phis of a function. -/
theorem fanOut (hsmall : c'.machine.operands.size ≤ 2 ^ 32) :
    ∃ fans, FanOut env A.filled A.copied c c' fans A.copies := by
  have hoperands := A.operands_eq hc'
  obtain ⟨fans, hfans, hnodup, hbelow, hplaced⟩ := A.exists_fans (hoperands ▸ hsmall)
  have hfans' : List.Forall₂ (Fan.Of env A.copied c'.machine) A.filled.pendingPhis fans :=
    hfans.imp fun k x hx => by rwa [Fan.Of, hoperands] at hx
  have hwrites := forall₂_copiesFor hfans'
  have horder : ∀ mb, ((A.copies mb).filterMap c'.machine.written?).filter
    (· ∈ fans.map Fan.reg) =
      writesFor fans mb := by
    intro mb
    refine (hplaced mb).written hc' (List.prefix_refl _) hsmall (fun x hx _ => ?_) hbelow
      (hwrites mb)
    obtain ⟨r, -, -, st, hdst⟩ := exists_left_of_forall₂ (hwrites mb).flip x hx
    exact ⟨_, ⟨c', hc', hdst⟩, r, rfl⟩
  have hcount : ∀ x ∈ fans, ∀ mb,
      (A.copies mb).countP (c'.machine.written? · = some x.reg) =
      x.entries.countP (·.1 = mb) := by
    intro x hx mb
    have hreg : decide (x.reg ∈ fans.map Fan.reg) = true :=
      decide_eq_true (List.mem_map_of_mem hx)
    rw [← count_writesFor hnodup hx mb, ← horder mb,
      List.count_filter (p := (· ∈ fans.map Fan.reg)) hreg, List.count_filterMap]
    exact List.countP_congr fun i _ => by simp
  obtain ⟨d, hd, hgrown⟩ := A.copying_follows.grown hc
  cases hc'.symm.trans hd
  obtain ⟨e, he, hnames⟩ := A.placing_any.blocks (.of_current hc' hsmall) c hc
  cases hc'.symm.trans he
  refine ⟨fans, hfans', hnodup, hgrown.layout, hnames, fun mb b hb => ?_,
    fun mb i hi => (A.placing_any.copies mb i hi).op, hplaced, horder, hcount, fun x hx =>
    sum_of_perBlock (hcount x hx)⟩
  obtain ⟨before, after, hinsts, hbefore, hafter, hcopies⟩ :=
    withCopies_split (A.copies mb) b.insts
  exact ⟨before, after, hinsts, hbefore, hafter, hcopies ▸
    A.block_of_filled hc hc' hsmall hb⟩

end Assembly

/--
Once the blocks of a function are filled, resolving its phis inserts one run of copies
into each block, right before the first terminator, and changes its blocks in no other
way. All phis of the function take part. Each has its register written exactly once for
each of its pairs, in the block of the pair's predecessor, and in each block the writes
follow the order of the phis and of their pairs.
-/
theorem resolvePendingPhis_inserts {f : IR.Function} {s₀ s₁ : State}
    (hf : env.module.function func = .ok f)
    (hopen : Runs (beginFunction func) env s₀ () s₁)
    (hfill : Runs (f.blocks.forM lowerBlock) env s₁ () s)
    (hphis : Runs resolvePendingPhis env s () s') (hc : s.current = some c)
    (hc' : s'.current = some c') (hsmall : c'.machine.operands.size ≤ 2 ^ 32) :
    s.pendingPhis = (env.module.order f).filter (isPhi env.module) ∧
      ∃ fans copies, FanOut env s s' c c' fans copies := by
  let sealed := { c'.machine with isSealed := true }
  let last : State := { s' with
    output := { s'.output with functions := s'.output.functions ++ [sealed] } }
  obtain ⟨A, rfl, rfl, hcopied, -⟩ :=
    @exists_assembly_of_stages env func s₀ last f s₁ s s' c' hf hopen hfill hphis hc' rfl
  obtain ⟨fans, hfans⟩ := A.fanOut hc (hcopied ▸ hc') hsmall
  exact ⟨A.pendingPhis_eq, fans, A.copies, hcopied ▸ hfans⟩

/-! ### A predecessor named twice -/

/--
`f(a, b)` swaps two phis in a loop that is its own predecessor, for the second phi by two
pairs.
-/
def spinning : IR.Module where
  name := "m"
  values := #[⟨.ptr (.function [.int .w32, .int .w32] .void false), .function ⟨0⟩⟩,
    ⟨.int .w32, .argument ⟨0⟩ 0⟩, ⟨.int .w32, .argument ⟨0⟩ 1⟩, ⟨.void, .block ⟨0⟩⟩,
    ⟨.void, .block ⟨1⟩⟩,
    ⟨.void, .instruction ⟨0⟩⟩, ⟨.int .w32, .instruction ⟨1⟩⟩,
    ⟨.int .w32, .instruction ⟨2⟩⟩, ⟨.void, .instruction ⟨3⟩⟩]
  insts := #[⟨.br, [⟨4⟩], .void, ⟨0⟩, ⟨5⟩⟩,
    ⟨.phi, [⟨1⟩, ⟨3⟩, ⟨7⟩, ⟨4⟩], .int .w32, ⟨1⟩, ⟨6⟩⟩,
    ⟨.phi, [⟨2⟩, ⟨3⟩, ⟨6⟩, ⟨4⟩, ⟨6⟩, ⟨4⟩], .int .w32, ⟨1⟩, ⟨7⟩⟩,
    ⟨.br, [⟨4⟩], .void, ⟨1⟩, ⟨8⟩⟩]
  blocks := #[⟨⟨0⟩, some "entry", [⟨0⟩], ⟨3⟩⟩, ⟨⟨0⟩, some "loop", [⟨1⟩, ⟨2⟩, ⟨3⟩], ⟨4⟩⟩]
  functions :=
    #[⟨"f", ⟨[.int .w32, .int .w32], .void, false⟩, [⟨1⟩, ⟨2⟩], [⟨0⟩, ⟨1⟩], false, ⟨0⟩⟩]
  globals := #[]

/-- Numbers of instructions in the blocks of the function being built. -/
def State.blockSizes (s : State) : Option (List Nat) :=
  s.current.map fun c => c.machine.blocks.toList.map (·.insts.length)

/--
Two copies are enough on entry; in the loop there are three, each by way of a temporary.
-/
theorem spinning_inserts :
    ∃ s s' c c', s.blockSizes = some [1, 1] ∧ s'.blockSizes = some [3, 7] ∧
      s.current = some c ∧
      s'.current = some c' ∧ s.pendingPhis = [⟨1⟩, ⟨2⟩] ∧
      ∃ fans copies, FanOut ⟨spinning, .win64⟩ s s' c c' fans copies := by
  obtain ⟨_, s₁, hopen, r₁⟩ := runs_of_leaves
    (show leaves (beginFunction ⟨0⟩) ⟨spinning, .win64⟩ (.initial "m") (fun _ s =>
      leaves ([⟨0⟩, ⟨1⟩].forM lowerBlock) ⟨spinning, .win64⟩ s fun _ s =>
      decide (s.blockSizes = some [1, 1]) &&
        leaves resolvePendingPhis ⟨spinning, .win64⟩ s fun _ s' =>
        s'.blockSizes = some [3, 7] ∧
          s'.current.map (·.machine.operands.size) = some 8) = true
      by decide +kernel)
  obtain ⟨_, s, hfill, r₂⟩ := runs_of_leaves r₁
  obtain ⟨hbefore, r₂⟩ := Bool.and_eq_true_iff.mp r₂
  obtain ⟨_, s', hphis, r₃⟩ := runs_of_leaves r₂
  obtain ⟨hafter, hsize⟩ := of_decide_eq_true r₃
  obtain ⟨c, hc, -⟩ := Option.map_eq_some_iff.mp (of_decide_eq_true hbefore)
  obtain ⟨c', hc', hsize⟩ := Option.map_eq_some_iff.mp hsize
  obtain ⟨hpending, hfans⟩ := @resolvePendingPhis_inserts ⟨spinning, .win64⟩ ⟨0⟩ s s' c c'
    ⟨"f", ⟨[.int .w32, .int .w32], .void, false⟩, [⟨1⟩, ⟨2⟩], [⟨0⟩, ⟨1⟩], false, ⟨0⟩⟩ _ s₁
    rfl hopen hfill hphis hc hc' (by omega)
  exact ⟨s, s', c, c', of_decide_eq_true hbefore, hafter, hc, hc',
    hpending.trans (by decide +kernel), hfans⟩

end InstSelect.Lowering
