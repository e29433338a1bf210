import Mathlib.Data.List.Forall2
import InstSelect.Proofs.OperandWidths
import InstSelect.Proofs.PhiMoves

/-!
# The copies of one predecessor

The copies that were collected for one predecessor stand for an assignment: all sources
are read before any destination is written. Which of them disturb each other is decided by
comparing operand ids. That is enough, because an id that names a register is the only one
that does, also when a cast handed the operand on to another value.
-/

namespace InstSelect.Machine

variable {h : Host} {σ : Cpu} {m : Function} {r : VReg} {code : List Code}

/-- Registers that no instruction writes keep their contents. -/
theorem virt_of_not_writes {e : Exit} (hr : ∀ c ∈ code, ¬ c.Writes r)
    (hrun : h.run code σ = some e) : e.cpu.virt r = σ.virt r := by
  induction code generalizing σ with
  | nil =>
    cases hrun
    rfl
  | cons c rest ih =>
    obtain ⟨hc, hrest⟩ := List.forall_mem_cons.mp hr
    have hkept : ∀ e, h.step σ c = some e → e.cpu.virt r = σ.virt r := fun e he =>
      (Frame.of_step he).virt r fun o ho hform => hc ⟨o, ho, hform⟩
    rw [Host.run] at hrun
    split at hrun
    · next τ hτ => exact (ih hrest hrun).trans (hkept _ hτ)
    · exact hkept e hrun

/-- Code of a function names the registers of the function only. -/
theorem Function.Numbered.not_writes {insts : List Inst} (hm : m.Numbered)
    (hcode : m.Decodes insts code) (hr : m.nextVReg.toNat ≤ r.index.toNat) :
    ∀ c ∈ code, ¬ c.Writes r := by
  rintro c hc ⟨o, ho, hform⟩
  obtain ⟨i, -, -, hoperands⟩ := Lowering.exists_left_of_forall₂ hcode c hc
  have hmem : o ∈ c.operands := by
    unfold Code.dst? at ho
    split at ho
    · exact List.mem_of_mem_head? ho
    · cases ho
  obtain ⟨id, -, hid⟩ := Lowering.exists_left_of_forall₂ hoperands o hmem
  have hlt := hm.below o (Array.mem_of_getElem? hid) r (by simp [Operand.vregs, hform])
  omega

end InstSelect.Machine

namespace InstSelect.Lowering

open Machine (Storage Operand OperandId Move Host Cpu withCopies)

variable {env : Env} {func : IR.FuncId} {s s' : State} {c c' : Current}
  {m m' : Machine.Function}

/--
In every state of a lowering, registers are numbered and arguments are where they came in.
-/
theorem Visited.settled (h : Visited env func s) : ∃ c, Settled env s c := by
  induction h with
  | reached h => exact h.settled
  | taken phis _ ih =>
    obtain ⟨c, hc⟩ := ih
    exact ⟨c, hc.replace hc.current rfl rfl rfl rfl fun _ _ hv => .inl hv⟩
  | later _ hf ih =>
    obtain ⟨c, hc⟩ := ih
    exact hc.later hf

/-! ## Copies and moves -/

theorem Denotes.mono {x : Copy} {y : Move} (h : Denotes m x y)
    (hm : m.operands.toList <+: m'.operands.toList) : Denotes m' x y :=
  ⟨Machine.Function.getElem?_of_prefix hm h.dst,
    Machine.Function.getElem?_of_prefix hm h.src⟩

section

variable {xs : List Copy} {moves : List Move} (hmoves : List.Forall₂ (Denotes m) xs moves)
include hmoves

theorem moves_unique {moves' : List Move} (hm : m.operands.toList <+: m'.operands.toList)
    (hmoves' : List.Forall₂ (Denotes m') xs moves') : moves' = moves :=
  Relator.RightUnique.forall₂ (fun _ _ _ h h' => h.unique h') hmoves'
    (hmoves.imp fun _ _ h => h.mono hm)

/-- Different registers are named by different ids. -/
theorem nodup_dst_of_moves (hdst : (moves.map Move.dst).Nodup) :
    (xs.map Copy.dst).Nodup := by
  refine List.pairwise_map.mpr
    (pairwise_of_forall₂ hmoves.flip (List.pairwise_map.mp hdst) ?_)
  intro y _ y' _ x x' hx hx' hne heq
  have hsame := hx.dst.symm.trans (heq ▸ hx'.dst)
  rw [Option.some.injEq, Operand.mk.injEq, Machine.Form.virt.injEq] at hsame
  exact hne hsame.1

theorem writable_of_moves (hc : s.current = some c)
    (hm : m.operands.toList <+: c.machine.operands.toList) :
    Writable (fun o => ∃ r, o.form = .virt r) s xs := by
  intro x hx _
  obtain ⟨y, -, hy⟩ := exists_left_of_forall₂ hmoves.flip x hx
  exact ⟨_, ⟨c, hc, (hy.mono hm).dst⟩, y.dst, rfl⟩

end

/--
The registers of moves between operands of a function are registers of the function.
-/
theorem below_of_moves {xs : List Copy} {moves : List Move} (hm : m.Numbered)
    (hmoves : List.Forall₂ (Denotes m) xs moves)
    (hsrc : ∀ x ∈ moves, ∀ a, x.src.form ≠ .mem a) :
    ∀ x ∈ moves, x.dst.index.toNat < m.nextVReg.toNat ∧
      x.src.Steady m.nextVReg.toNat := by
  intro y hy
  obtain ⟨x, -, hx⟩ := exists_left_of_forall₂ hmoves y hy
  have hdst := hm.below _ (Array.mem_of_getElem? hx.dst)
  have hread := hm.below _ (Array.mem_of_getElem? hx.src)
  refine ⟨hdst y.dst (by simp [Operand.vregs]), ?_⟩
  have hmem := hsrc y hy
  obtain ⟨r, st, form, st'⟩ := y
  cases form with
  | virt q => exact hread q (by simp [Operand.vregs])
  | mem a => exact (hmem a rfl).elim
  | _ => trivial

/-! ## The assignment -/

/--
In any state of a lowering, placing copies with different destinations inserts
instructions into one block, right before its first terminator. Run from any state of the
machine, they give every destination what its source stood for before the first of them,
whichever of the sources are destinations as well; flags, memory and physical registers
stay, and so do all registers but the destinations and those that were added for the
purpose.
-/
theorem placeCopies_assigns {edge : EdgeCopies} {moves : List Move}
    (hs : Visited env func s) (hrun : Runs (placeCopies edge) env s () s')
    (hc : s.current = some c) (hc' : s'.current = some c')
    (hsmall : c'.machine.operands.size ≤ 2 ^ 32)
    (hmoves : List.Forall₂ (Denotes c.machine) edge.copies moves)
    (hdst : (moves.map Move.dst).Nodup) (hsrc : ∀ x ∈ moves, ∀ a, x.src.form ≠ .mem a) :
    ∃ insts code,
      (∀ mb, s'.instsOf mb = withCopies (only edge.block insts mb) (s.instsOf mb)) ∧
      c'.machine.decode insts = some code ∧
      ∀ (h : Host) (σ : Cpu), ∃ τ, h.run code σ = some (.falls τ) ∧
        τ = { σ with virt := τ.virt } ∧
        (∀ x ∈ moves,
          (τ.virt x.dst).setWidth x.storage.width =
          (h.value σ x.src).setWidth x.storage.width) ∧
        ∀ r, (∀ x ∈ moves, x.dst ≠ r) →
          ¬ (s.vregs ≤ r.index.toNat ∧ r.index.toNat < s'.vregs) →
          τ.virt r = σ.virt r := by
  obtain ⟨d, hd⟩ := hs.settled
  cases hc.symm.trans hd.current
  obtain ⟨insts, hplaced, hplacing⟩ :=
    placeCopies_placing (P := fun o => ∃ r, o.form = .virt r) hc
    (Nat.le_refl s.vregs) (fun o ⟨r, hr, _⟩ => ⟨r, hr ▸ rfl⟩)
    (writable_of_moves hmoves hc (List.prefix_refl _)) hrun
  obtain ⟨d', hd'⟩ := hd.later hplacing.follows
  cases hc'.symm.trans hd'.current
  obtain ⟨d', hg', hgrown⟩ := hplacing.follows.grown hc
  cases hc'.symm.trans hg'
  -- What the copies denote is the same before and after temporaries were added.
  obtain ⟨moves', code, hmoves', hdecodes, hparallel⟩ :=
    hplaced.moves hc' (List.prefix_refl _) hsmall
    hd'.numbered (nodup_dst_of_moves hmoves hdst)
    (writable_of_moves hmoves hc' hgrown.operands)
  obtain rfl := moves_unique hmoves hgrown.operands hmoves'
  have hbelow := below_of_moves hd.numbered hmoves hsrc
  rw [← State.vregs_eq hc] at hbelow
  refine ⟨insts, code, hplacing.insts, Machine.Function.decode_eq_some.mpr hdecodes,
    fun h σ => ?_⟩
  obtain ⟨τ, hτ, hassigned⟩ := hparallel.run hdst (fun x hx => (hbelow x hx).1)
    (fun x hx => (hbelow x hx).2) h σ
  refine ⟨τ, hτ, hassigned.virtual, hassigned.moved, fun r hne hold => ?_⟩
  by_cases hr : r.index.toNat < s.vregs
  · exact hassigned.others r hr hne
  · have hnew : c'.machine.nextVReg.toNat ≤ r.index.toNat := by
      rw [← State.vregs_eq hc']
      omega
    exact Machine.virt_of_not_writes (hd'.numbered.not_writes hdecodes hnew) hτ

/-! ### A swap -/

/-- Two registers are swapped, and a third takes the argument. -/
def swapping : EdgeCopies := ⟨⟨0⟩, [⟨⟨1⟩, ⟨2⟩⟩, ⟨⟨2⟩, ⟨1⟩⟩, ⟨⟨3⟩, ⟨0⟩⟩]⟩

/-- The moves of the swap. -/
def swaps : List Move :=
  [⟨⟨0⟩, .i64, ⟨.virt ⟨1⟩, .i64⟩⟩, ⟨⟨1⟩, .i64, ⟨.virt ⟨0⟩, .i64⟩⟩,
    ⟨⟨2⟩, .ptr, ⟨.phys .rcx, .ptr⟩⟩]

/-- The argument of the function and three registers. -/
def swappable : Array Operand :=
  #[⟨.phys .rcx, .ptr⟩, ⟨.virt ⟨0⟩, .i64⟩, ⟨.virt ⟨1⟩, .i64⟩, ⟨.virt ⟨2⟩, .ptr⟩]

theorem denotes_swaps (hm : m.operands = swappable) :
    List.Forall₂ (Denotes m) swapping.copies swaps := by
  have hget : ∀ {k : Nat} {o : Operand}, swappable[k]? = some o →
    m.operands[k]? = some o := hm ▸ id
  exact .cons ⟨hget rfl, hget rfl⟩
    (.cons ⟨hget rfl, hget rfl⟩ (.cons ⟨hget rfl, hget rfl⟩ .nil))

theorem Visited.newVReg {st : Storage} {id : OperandId} (h : Visited env func s)
    (hrun : Runs (newVReg st) env s id s') : Visited env func s' := by
  obtain ⟨-, -, -, hpath, -⟩ := newVReg_adds hrun
  exact h.later (.of_path hpath)

theorem swapping_runs :
    ∃ s s' c c', Visited ⟨pointerAs (.uint .w64), .win64⟩ ⟨0⟩ s ∧
      Runs (placeCopies swapping) ⟨pointerAs (.uint .w64), .win64⟩ s () s' ∧
        s.current = some c ∧
      s'.current = some c' ∧ c.machine.operands = swappable ∧
        c'.machine.operands.size = 7 ∧
      s.instsOf ⟨0⟩ = [] ∧ (s'.instsOf ⟨0⟩).length = 6 := by
  obtain ⟨_, s1, h1, r1⟩ := runs_of_leaves
    (show leaves (beginFunction ⟨0⟩) ⟨pointerAs (.uint .w64), .win64⟩ (.initial "m")
    (fun _ s =>
      leaves (blockFor ⟨0⟩) ⟨pointerAs (.uint .w64), .win64⟩ s fun _ s =>
      leaves (newVReg .i64) ⟨pointerAs (.uint .w64), .win64⟩ s fun _ s =>
      leaves (newVReg .i64) ⟨pointerAs (.uint .w64), .win64⟩ s fun _ s =>
      leaves (newVReg .ptr) ⟨pointerAs (.uint .w64), .win64⟩ s fun _ s =>
      decide (s.current.map (·.machine.operands) = some swappable ∧ s.instsOf ⟨0⟩ = []) &&
        leaves (placeCopies swapping) ⟨pointerAs (.uint .w64), .win64⟩ s fun _ s' =>
          s'.current.map (·.machine.operands.size) = some 7 ∧
            (s'.instsOf ⟨0⟩).length = 6) = true
      by decide +kernel)
  obtain ⟨_, s2, h2, r2⟩ := runs_of_leaves r1
  obtain ⟨_, s3, h3, r3⟩ := runs_of_leaves r2
  obtain ⟨_, s4, h4, r4⟩ := runs_of_leaves r3
  obtain ⟨_, s, h5, r5⟩ := runs_of_leaves r4
  obtain ⟨hbefore, r5⟩ := Bool.and_eq_true_iff.mp r5
  obtain ⟨_, s', hrun, hafter⟩ := runs_of_leaves r5
  obtain ⟨hoperands, hempty⟩ := of_decide_eq_true hbefore
  obtain ⟨hsize, hlength⟩ := of_decide_eq_true hafter
  obtain ⟨c, hc, hoperands⟩ := Option.map_eq_some_iff.mp hoperands
  obtain ⟨c', hc', hsize⟩ := Option.map_eq_some_iff.mp hsize
  have hentered := (Visited.reached (.opened h1)).later (.of_path (blockFor_path h2).1)
  exact ⟨s, s', c, c', ((hentered.newVReg h3).newVReg h4).newVReg h5, hrun, hc, hc',
    hoperands, hsize, hempty, hlength⟩

/-- A swap goes by way of temporaries, so three copies are six instructions. -/
theorem swapping_assigns :
    ∃ s s' c c', Visited ⟨pointerAs (.uint .w64), .win64⟩ ⟨0⟩ s ∧
      Runs (placeCopies swapping) ⟨pointerAs (.uint .w64), .win64⟩ s () s' ∧
        s.current = some c ∧
      s'.current = some c' ∧ List.Forall₂ (Denotes c.machine) swapping.copies swaps ∧
      ∃ insts code, s'.instsOf ⟨0⟩ = insts ∧ insts.length = 6 ∧
        c'.machine.decode insts = some code ∧
        ∀ (h : Host) (σ : Cpu), ∃ τ, h.run code σ = some (.falls τ) ∧
          τ.status = σ.status ∧
          τ.virt ⟨0⟩ = σ.virt ⟨1⟩ ∧ τ.virt ⟨1⟩ = σ.virt ⟨0⟩ ∧
            τ.virt ⟨2⟩ = σ.phys .rcx := by
  obtain ⟨s, s', c, c', hvisited, hrun, hc, hc', hoperands, hsize, hempty, hlength⟩ :=
    swapping_runs
  have hmoves := denotes_swaps hoperands
  obtain ⟨insts, code, hinsts, hdecode, hcode⟩ :=
    placeCopies_assigns hvisited hrun hc hc' (by omega) hmoves (by decide)
      (by simp [swaps])
  have hhere : s'.instsOf ⟨0⟩ = insts := by
    rw [hinsts, hempty]
    exact List.append_nil _
  refine ⟨s, s', c, c', hvisited, hrun, hc, hc', hmoves, insts, code, hhere, hhere ▸
    hlength, hdecode, fun h σ => ?_⟩
  obtain ⟨τ, hτ, hvirtual, hmoved, -⟩ := hcode h σ
  simp only [swaps, List.forall_mem_cons] at hmoved
  obtain ⟨hfirst, hsecond, hthird, -⟩ := hmoved
  refine ⟨τ, hτ, by rw [hvirtual], ?_, ?_, ?_⟩
  · exact (BitVec.setWidth_eq _).symm.trans (hfirst.trans (BitVec.setWidth_eq _))
  · exact (BitVec.setWidth_eq _).symm.trans (hsecond.trans (BitVec.setWidth_eq _))
  · exact (BitVec.setWidth_eq _).symm.trans (hthird.trans (BitVec.setWidth_eq _))

end InstSelect.Lowering
