import InstSelect.Proofs.Totality

/-!
# The copies of phis

How the copies that stand for phis are collected and placed. A copy enters a block before
its first terminator, and the copies of one predecessor are kept together, in the order in
which they were met.
-/

namespace InstSelect.Lowering

open IR (ValueId)

variable {env : Env} {s s' : State} {edges : List EdgeCopies} {mb mb' : Machine.BlockId}
  {copy : Copy}

/-- Adding a copy adds nothing else. -/
theorem forall_addCopy {P : Machine.BlockId → Prop} {Q : Copy → Prop}
    (h : ∀ e ∈ edges, P e.block ∧ ∀ x ∈ e.copies, Q x) (hmb : P mb) (hcopy : Q copy) :
    ∀ e ∈ addCopy mb copy edges, P e.block ∧ ∀ x ∈ e.copies, Q x := by
  induction edges with
  | nil =>
    intro e he
    cases List.mem_singleton.mp he
    exact ⟨hmb, fun x hx => List.mem_singleton.mp hx ▸ hcopy⟩
  | cons edge rest ih =>
    obtain ⟨hedge, hrest⟩ := List.forall_mem_cons.mp h
    rw [addCopy]
    split
    · refine List.forall_mem_cons.mpr ⟨⟨hedge.1, fun x hx => ?_⟩, hrest⟩
      rcases List.mem_append.mp hx with hold | hnew
      · exact hedge.2 x hold
      · exact List.mem_singleton.mp hnew ▸ hcopy
    · exact List.forall_mem_cons.mpr ⟨hedge, ih hrest⟩

/-- Adding a copy makes one more. -/
theorem sum_addCopy : ((addCopy mb copy edges).map (·.copies.length)).sum =
    (edges.map (·.copies.length)).sum + 1 := by
  induction edges with
  | nil => rfl
  | cons edge rest ih =>
    rw [addCopy]
    split
    · simp only [List.map_cons, List.sum_cons, List.length_append, List.length_singleton]
      omega
    · simp only [List.map_cons, List.sum_cons, ih]
      omega

/-! ## The copies of one block -/

/-- The copies that were collected for a block. -/
def copiesIn (mb : Machine.BlockId) : List EdgeCopies → List Copy
  | [] => []
  | e :: edges => if e.block = mb then e.copies else copiesIn mb edges

/-- A copy joins those of its block, as the last of them. -/
theorem copiesIn_addCopy :
    copiesIn mb' (addCopy mb copy edges) =
      if mb = mb' then copiesIn mb' edges ++ [copy] else copiesIn mb' edges := by
  induction edges with
  | nil => by_cases hmb : mb = mb' <;> simp [addCopy, copiesIn, hmb]
  | cons e edges ih =>
    by_cases he : e.block = mb
    · by_cases hmb : mb = mb' <;> simp [addCopy, copiesIn, he, hmb]
    · by_cases he' : e.block = mb'
      · have hmb : mb ≠ mb' := fun heq => he (he'.trans heq.symm)
        rw [addCopy, if_neg he, if_neg hmb, copiesIn, if_pos he', copiesIn, if_pos he']
      · simp [addCopy, copiesIn, he, he', ih]

theorem mem_blocks_addCopy (h : mb' ∈ (addCopy mb copy edges).map EdgeCopies.block) :
    mb' = mb ∨ mb' ∈ edges.map EdgeCopies.block := by
  induction edges with
  | nil => exact .inl (by simpa [addCopy] using h)
  | cons e edges ih =>
    rw [addCopy] at h
    split at h
    · exact .inr h
    · rcases List.mem_cons.mp h with rfl | h
      · exact .inr List.mem_cons_self
      · exact (ih h).imp id (List.mem_cons_of_mem _)

/-- There is one group of copies for a block. -/
theorem nodup_addCopy (h : (edges.map EdgeCopies.block).Nodup) :
    ((addCopy mb copy edges).map EdgeCopies.block).Nodup := by
  induction edges with
  | nil => simp [addCopy]
  | cons e edges ih =>
    obtain ⟨hnew, hrest⟩ := List.nodup_cons.mp h
    rw [addCopy]
    split
    · exact h
    · next hne =>
      refine List.nodup_cons.mpr ⟨fun hmem => ?_, ih hrest⟩
      rcases mem_blocks_addCopy hmem with heq | hold
      · exact hne heq
      · exact hnew hold

theorem copiesIn_eq_nil (h : mb ∉ edges.map EdgeCopies.block) :
    copiesIn mb edges = [] := by
  induction edges with
  | nil => rfl
  | cons e edges ih =>
    rw [List.map_cons, List.mem_cons, not_or] at h
    rw [copiesIn, if_neg (Ne.symm h.1), ih h.2]

/-- A copy, with the block it is for. -/
abbrev Entry := Machine.BlockId × Copy

variable {entries : List Entry}

def addEntries (edges : List EdgeCopies) (entries : List Entry) : List EdgeCopies :=
  entries.foldl (fun edges e => addCopy e.1 e.2 edges) edges

theorem nodup_addEntries (h : (edges.map EdgeCopies.block).Nodup) :
    ((addEntries edges entries).map EdgeCopies.block).Nodup := by
  induction entries generalizing edges with
  | nil => exact h
  | cons e entries ih => exact ih (nodup_addCopy h)

theorem copiesIn_addEntries :
    copiesIn mb (addEntries edges entries) =
      copiesIn mb edges ++ (entries.filter (·.1 = mb)).map Prod.snd := by
  induction entries generalizing edges with
  | nil => simp [addEntries]
  | cons e entries ih =>
    have hstep : addEntries edges (e :: entries) =
      addEntries (addCopy e.1 e.2 edges) entries := rfl
    rw [hstep, ih, copiesIn_addCopy]
    by_cases he : e.1 = mb <;> simp [he]

/-! ## Single steps -/

theorem runs_predecessorBlock {phi pred : ValueId} :
    Runs (predecessorBlock phi pred) env s mb s' ↔
      ∃ b, env.module.blockOf pred = .ok b ∧ s.blocks.find? b = some mb ∧ s = s' := by
  simp only [predecessorBlock, runs_bind, runs_sourceModule, runs_check, runs_get]
  constructor
  · rintro ⟨_, _, ⟨rfl, rfl⟩, b, _, ⟨hb, rfl⟩, _, _, ⟨rfl, rfl⟩, h⟩
    cases hfind : s.blocks.find? b with
    | some mb' =>
      rw [hfind] at h
      obtain ⟨rfl, rfl⟩ := runs_pure.mp h
      exact ⟨b, hb, hfind, rfl⟩
    | none =>
      rw [hfind] at h
      exact absurd (runs_check.mp h).1 violate_ne_ok
  · rintro ⟨b, hb, hfind, rfl⟩
    refine ⟨_, s, ⟨rfl, rfl⟩, b, s, ⟨hb, rfl⟩, s, s, ⟨rfl, rfl⟩, ?_⟩
    rw [hfind]
    exact runs_pure.mpr ⟨rfl, rfl⟩

/-- A copy is placed if its operands exist and fit. -/
theorem runs_insertCopy {u : Unit} :
    Runs (insertCopy mb copy) env s u s' ↔
      ∃ c o d b, s.current = some c ∧ c.machine.isSealed = false ∧
        c.machine.operands[copy.src.index.toNat]? = some o ∧
        c.machine.operands[copy.dst.index.toNat]? = some d ∧
          o.copyOp.accepts [d, o] = true ∧
        c.machine.blocks[mb.index.toNat]? = some b ∧
        env.allocator.refusal? (.inst mb b.insts.length) = none ∧
        s' = s.withMachine c
          (c.machine.inserted mb b ⟨o.copyOp, [copy.dst, copy.src]⟩) := by
  simp only [insertCopy, copyOp, runs_bind, runs_pure, runs_operand, runs_change,
    Machine.Function.insertBeforeTerminator_eq_ok, Machine.Function.Operands]
  constructor
  · rintro ⟨op, _, ⟨o, _, ⟨c, hc, ho, rfl⟩, rfl, rfl⟩, c', f, hc',
      ⟨hopen, os, b, hos, ha, hb, hm, rfl⟩, hs⟩
    cases hc.symm.trans hc'
    obtain ⟨d, _, hd, ⟨o', _, ho', hnil, rfl⟩, rfl⟩ := by
      simpa only [List.forall₂_cons_left_iff] using hos
    cases hnil
    cases ho.symm.trans ho'
    exact ⟨c, o, d, b, hc, hopen, ho, hd, ha, hb, hm, hs⟩
  · rintro ⟨c, o, d, b, hc, hopen, ho, hd, ha, hb, hm, hs⟩
    exact ⟨_, s, ⟨o, s, ⟨c, hc, ho, rfl⟩, rfl, rfl⟩, c, _, hc,
      ⟨hopen, [d, o], b, .cons hd (.cons ho .nil), ha, hb, hm, rfl⟩, hs⟩

/-- A placed instruction changes the code of one block only. -/
theorem follows_inserted {c : Current} {b : Machine.Block} (i : Machine.Inst)
    (hc : s.current = some c) (hb : c.machine.blocks[mb.index.toNat]? = some b) :
    Follows env s (s.withMachine c (c.machine.inserted mb b i)) :=
  .edit hc Array.size_setIfInBounds (Machine.names_setIfInBounds hb rfl)

end InstSelect.Lowering
