import InstSelect.Proofs.PhiCopies
import InstSelect.Proofs.SourceBlocks
import InstSelect.Proofs.TypedInstructions

/-!
# Phis of well-typed functions always lower

Once all instructions of a well-typed function were lowered, the inputs of its phis are
bound and its blocks are known, so the copies of the phis can be collected. Each of them
is between operands that a copy fits, and stays so while others are placed.
-/

namespace InstSelect.Lowering

open IR (ValueId InstId)
open Machine (Operand OperandId)

variable {J : Job} {s t : State} {c : Current} {n w k : Nat} {α β : Type} {copy : Copy}
  {edges : List EdgeCopies} {mb : Machine.BlockId} {b : IR.BlockId}

/-- A fold whose rounds cannot fail at any later state; `P` also counts what they cost. -/
theorem Total.foldlM {as : List α} {f : β → α → LowerM β} {cost : α → Nat}
    {P : β → Nat → State → Prop} {b : β}
    (hf : ∀ a ∈ as, ∀ b k t, Follows J.env s t → P b k t →
      Total J (cost a) t (f b a) fun b' u => P b' (k + cost a) u) (hP : P b k s) :
    Total J (as.map cost).sum s (as.foldlM f b) fun b' t =>
      P b' (k + (as.map cost).sum) t := by
  induction as generalizing s b k with
  | nil => exact .pure hP
  | cons a as ih =>
    rw [List.foldlM_cons, List.map_cons, List.sum_cons, ← Nat.add_assoc]
    refine Total.bind (hf a List.mem_cons_self b k s (.refl _) hP) fun b' t hst hP' =>
      ih ?_ hP'
    exact fun a' ha' b k u hu => hf a' (List.mem_cons_of_mem _ ha') b k u (hst.trans hu)

/-! ## Collecting -/

/-- A copy that can be placed: from a value into a virtual register. -/
structure Copyable (t : State) (copy : Copy) : Prop where
  dst : ∃ r st, t.Holds copy.dst ⟨.virt r, st⟩
  src : ∃ o w, t.Holds copy.src o ∧ o.IsValue w

theorem Copyable.later (h : Copyable s copy) (hf : Follows J.env s t) :
    Copyable t copy := by
  obtain ⟨⟨r, st, hd⟩, o, w, ho, hval⟩ := h
  exact ⟨⟨r, st, hd.later hf⟩, o, w, ho.later hf, hval⟩

/-- Copies for blocks that exist. -/
def Placeable (edges : List EdgeCopies) (t : State) : Prop :=
  ∀ e ∈ edges, (∃ b, t.blocks.find? b = some e.block) ∧ ∀ x ∈ e.copies, Copyable t x

theorem Placeable.later (h : Placeable edges s) (hf : Follows J.env s t) :
    Placeable edges t := by
  intro e he
  obtain ⟨⟨b, hb⟩, hcopies⟩ := h e he
  exact ⟨⟨b, hf.blocks hb⟩, fun x hx => (hcopies x hx).later hf⟩

/-- Copies that can be placed, so many of them. -/
def Collected (edges : List EdgeCopies) (k : Nat) (t : State) : Prop :=
  Placeable edges t ∧ (edges.map (·.copies.length)).sum = k

/-- All instructions of the function were lowered, and all of its blocks entered. -/
structure Complete (J : Job) (s : State) : Prop where
  lowered : Lowered J s (J.env.module.order J.f)
  entered : ∀ b ∈ J.f.blocks, ∃ mb, s.blocks.find? b = some mb

theorem Complete.later (h : Complete J s) (hf : Follows J.env s t) : Complete J t := by
  refine ⟨h.lowered.later hf, fun b hb => ?_⟩
  obtain ⟨mb, hmb⟩ := h.entered b hb
  exact ⟨mb, hf.blocks hmb⟩

/-- The inputs of a phi are usable and come from own blocks. -/
def Inputs (J : Job) (ty : IR.Ty) (incoming : List (ValueId × ValueId)) : Prop :=
  ∀ p ∈ incoming, J.env.module.Usable J.func (· ∈ J.env.module.order J.f) ty p.1 ∧
    J.env.module.OwnBlock J.func p.2

/-- A phi that is well-typed as an instruction of the function. -/
def TypedPhi (J : Job) (inst : InstId) : Prop :=
  ∀ i, J.env.module.inst inst = .ok i → i.opcode = .phi → i.ty.isScalar = true ∧
    ∃ incoming, IR.pairs? i.operands = some incoming ∧ Inputs J i.ty incoming

theorem collectPair_total {phi : ValueId} {dst : OperandId} {ty : IR.Ty}
    {p : ValueId × ValueId} (hs : Complete J s) (hscalar : ty.isScalar = true)
    (hp : Inputs J ty [p]) (hdst : ∃ r st, s.Holds dst ⟨.virt r, st⟩)
    (hedges : Collected edges k s) :
    Total J 1 s (collectPair phi dst edges p) fun edges' t =>
      Collected edges' (k + 1) t := by
  obtain ⟨husable, _, b, data, hvalue, hb, hown⟩ := hp p List.mem_cons_self
  obtain ⟨mb, hmb⟩ := hs.entered b (J.linked.mem_blocks hb (hown ▸ J.function))
  have hblock : J.env.module.blockOf p.2 = .ok b := by
    rw [IR.Module.blockOf, hvalue]
    rfl
  obtain ⟨st, -, hav⟩ := hs.lowered.available husable hscalar
  refine .reading (runs_predecessorBlock.mpr ⟨b, hblock, hmb, rfl⟩) ?_
  refine Total.bind (n := 1) (m := 0) (resolve_total hav) fun src t hf ho => ?_
  obtain ⟨o, ho, hval⟩ := ho
  obtain ⟨r, st', hdst⟩ := hdst
  refine .pure ⟨?_, ?_⟩
  · exact forall_addCopy (P := fun mb => ∃ b, t.blocks.find? b = some mb)
      (Q := Copyable t)
      (hedges.1.later hf) ⟨b, hf.blocks hmb⟩ ⟨⟨r, st', hdst.later hf⟩, o, _, ho, hval⟩
  · rw [sum_addCopy, hedges.2]

theorem length_of_pairs? {xs : List α} {ps : List (α × α)} (h : IR.pairs? xs = some ps) :
    xs.length = 2 * ps.length := by
  fun_induction IR.pairs? xs generalizing ps with
  | case1 =>
    cases h
    rfl
  | case2 => cases h
  | case3 a b rest ih =>
    obtain ⟨qs, hqs, rfl⟩ := Option.map_eq_some_iff.mp h
    have := ih hqs
    simp only [List.length_cons]
    omega

theorem collectPhi_total {inst : InstId} (hs : Complete J s) (hphi : PhiBound J s inst)
    (htyped : TypedPhi J inst) (hedges : Collected edges k s) :
    Total J (J.env.module.arity inst / 2) s (collectPhi edges inst) fun edges' t =>
      Collected edges' (k + J.env.module.arity inst / 2) t := by
  obtain ⟨i, dst, r, st, hi, hop, hfind, hholds⟩ := hphi.out
  obtain ⟨hscalar, incoming, hpairs, hinputs⟩ := htyped i hi hop
  have hincoming : i.phiIncoming = .ok incoming := by
    rw [IR.Inst.phiIncoming, hop, hpairs]
  have hcost : J.env.module.arity inst / 2 = (incoming.map fun _ => 1).sum := by
    rw [IR.Module.arity_eq hi, length_of_pairs? hpairs]
    simp
  rw [hcost]
  refine .sourceModule
    (.check hi (.reading (runs_lookupValue.mpr ⟨hfind, rfl⟩) (.check hincoming ?_)))
  refine Total.foldlM (fun p hp edges k t hf hedges => ?_) hedges
  exact collectPair_total (hs.later hf) hscalar (fun q hq => List.mem_singleton.mp hq ▸
    hinputs p hp) ⟨r, st, hholds.later hf⟩ hedges

/-! ## Placing -/

theorem insertCopy_total (hmb : s.blocks.find? b = some mb) (h : Copyable s copy) :
    Total J 0 s (insertCopy mb copy) fun _ _ => True := by
  intro c hc _
  obtain ⟨sts, hs⟩ := hc.session
  obtain ⟨⟨r, st, d, hd, hdst⟩, o, w, ⟨e, he, hsrc⟩, hval⟩ := h
  cases hc.current.symm.trans hd
  cases hc.current.symm.trans he
  have hblock := Array.getElem?_eq_getElem (hs.blocks b mb hmb)
  refine ⟨(), _, runs_insertCopy.mpr ⟨c, o, _, _, hc.current, hc.isOpen, hsrc, hdst,
    hval.accepts_copy rfl, hblock, J.ample _ rfl, rfl⟩,
    follows_inserted _ hc.current hblock, ?_, trivial⟩
  rw [State.size_eq rfl, State.size_eq hc.current]
  exact Nat.le_of_eq (congrArg (c.machine.operands.size + ·) Array.size_setIfInBounds)

theorem stageCopy_total (hmb : s.blocks.find? b = some mb) (h : Copyable s copy) :
    Total J 1 s (stageCopy mb copy) fun copy' t => Copyable t copy' := by
  obtain ⟨⟨r, st, hd⟩, o, w, ho, hval⟩ := h
  have hstorage : Total J 0 s (storage copy.dst) fun st' t => st' = st ∧ t = s :=
    .operand hd (.pure ⟨rfl, rfl⟩)
  refine Total.bind (n := 0) (m := 1) hstorage fun _ _ _ hst => ?_
  obtain ⟨rfl, rfl⟩ := hst
  refine Total.bind (n := 1) (m := 0) (newVReg_total _) fun temporary t hf htemp => ?_
  obtain ⟨r', htemp⟩ := htemp
  refine Total.seq (n := 0) (m := 0)
    (insertCopy_total (hf.blocks hmb) ⟨⟨r', _, htemp⟩, o, w, ho.later hf, hval⟩)
    fun _ u hf' => ?_
  exact .pure ⟨⟨r, _, hd.later (hf.trans hf')⟩, _, _, htemp.later hf',
    (Operand.inReg_virt r' _).direct.value⟩

/-- The copies of one predecessor are placed. -/
theorem placeCopies_total {edge : EdgeCopies} (h : Placeable [edge] s) :
    Total J edge.copies.length s (placeCopies edge) fun _ _ => True := by
  obtain ⟨⟨b, hb⟩, hcopies⟩ := h edge List.mem_cons_self
  have hplace : ∀ {copies : List Copy} {t : State}, Follows J.env s t →
      (∀ x ∈ copies, Copyable t x) →
      Total J 0 t (copies.forM (insertCopy edge.block)) fun _ _ => True := by
    intro copies t hf hall
    have := Total.forM (n := 0) (J := J) fun x hx u hu =>
      insertCopy_total (hu.blocks (hf.blocks hb)) ((hall x hx).later hu)
    rwa [Nat.mul_zero] at this
  refine .ite (fun _ => ?_) fun _ => (hplace (.refl _) hcopies).weaken (Nat.zero_le _)
  have hstaged : Total J edge.copies.length s (edge.copies.mapM (stageCopy edge.block))
      fun staged t => ∀ x ∈ staged, Copyable t x := by
    have := Total.mapM (n := 1) (J := J) (P := fun x t => Copyable t x)
      (fun x t u hx hu => hx.later hu) fun x hx t hf =>
      stageCopy_total (hf.blocks hb) ((hcopies x hx).later hf)
    rwa [Nat.mul_one] at this
  exact Total.bind (m := 0) hstaged fun staged t hf hall => hplace hf hall

/-- Phis have two operands for each copy. -/
theorem copies_le_weight (m : IR.Module) {xs ys : List InstId} (h : xs.Sublist ys) :
    2 * (xs.map fun id => m.arity id / 2).sum ≤ m.weight ys := by
  induction h with
  | slnil => exact Nat.le_refl _
  | cons y _ ih =>
    rw [IR.Module.weight_cons]
    omega
  | cons_cons x _ ih =>
    rw [IR.Module.weight_cons, List.map_cons, List.sum_cons]
    omega

/-- All remembered phis become copies. -/
theorem resolvePendingPhis_total (hc : Ready J s c) (hs : Complete J s)
    (htyped : ∀ inst ∈ s.pendingPhis, TypedPhi J inst)
    (hroom : s.size + J.env.module.weight (J.env.module.order J.f) < 2 ^ 32) :
    ∃ s' c', Runs resolvePendingPhis J.env s () s' ∧ Ready J s' c' := by
  let s0 : State := { s with pendingPhis := [] }
  have hholds : ∀ id o, s.Holds id o → s0.Holds id o := fun _ _ ho => ho
  have hready : Ready J s0 c := by
    obtain ⟨sts, hsession⟩ := hc.session
    refine ⟨⟨sts,
      hsession.persists ⟨hsession.current, rfl, rfl, rfl, rfl, List.prefix_refl _,
        fun _ _ hb => hb⟩ (fun _ _ hv => .inl hv) hsession.blocks hsession.insertion⟩,
      hc.receives, hc.counted⟩
  have hs0 : Complete J s0 :=
    ⟨hs.lowered.of_holds rfl (List.nil_sublist _) hholds, hs.entered⟩
  have hphis : ∀ inst ∈ s.pendingPhis, PhiBound J s0 inst := fun inst hinst =>
    ⟨(hs.lowered.phis inst hinst).out⟩
  have hbudget := copies_le_weight J.env.module hs.lowered.pending
  generalize hk : (s.pendingPhis.map fun id => J.env.module.arity id / 2).sum =
    k at hbudget
  have hcollect : Total J k s0 (s.pendingPhis.foldlM collectPhi []) fun edges t =>
      Collected edges k t := by
    have hfold := Total.foldlM (P := Collected) (s := s0) (b := []) (k := 0)
      (fun inst hinst edges k t hf hedges => collectPhi_total (hs0.later hf)
        ((hphis inst hinst).later hf) (htyped inst hinst) hedges)
        ⟨fun e he => (by cases he), rfl⟩
    rwa [hk, Nat.zero_add] at hfold
  have hplace : ∀ edges t, Follows J.env s0 t → Collected edges k t →
      Total J k t (edges.forM placeCopies) fun _ _ => True := by
    intro edges t _ hedges
    rw [← hedges.2]
    refine Total.forM_sum fun edge hedge u hu => placeCopies_total fun e he => ?_
    cases List.mem_singleton.mp he
    exact hedges.1.later hu edge hedge
  have hsize : s0.size = s.size := rfl
  obtain ⟨_, s', hrun, hf, -⟩ := hcollect.bind hplace c hready (by omega)
  obtain ⟨c', hc'⟩ := hready.later hf
  refine ⟨s', c', ?_, hc'⟩
  exact runs_bind.mpr ⟨s, s, runs_get.mpr ⟨rfl, rfl⟩,
    runs_bind.mpr ⟨(), s0, runs_modify.mpr rfl, hrun⟩⟩

end InstSelect.Lowering
