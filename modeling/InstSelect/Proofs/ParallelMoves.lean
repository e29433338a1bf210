import Mathlib.Data.List.Nodup
import InstSelect.Proofs.Fetching

/-!
# Moves that are made at once

A list of moves to different virtual registers stands for one assignment: every source is
read before any register is written. Code can make the moves one after the other if none
of them reads what an earlier one wrote. Otherwise it first brings all sources to
temporaries of their own, and the temporaries to the registers afterwards. Either way only
virtual registers change, so flags that were set before the moves can be read behind them.
-/

namespace InstSelect.Machine

/-- A move of an operand's value to a virtual register of a class. -/
structure Move where
  dst : VReg
  storage : Storage
  src : Operand

namespace Move

def code (x : Move) : Code := ⟨x.src.copyOp, [⟨.virt x.dst, x.storage⟩, x.src]⟩

/-- The move to a temporary instead. -/
def stage (x : Move) (t : VReg) : Move := { x with dst := t }

/-- The move from a temporary instead. -/
def unstage (x : Move) (t : VReg) : Move := { x with src := ⟨.virt t, x.storage⟩ }

end Move

/--
The state after moves were made at once; registers from `n` on are free for other uses.
-/
structure Assigned (h : Host) (n : Nat) (moves : List Move) (σ τ : Cpu) : Prop where
  virtual : τ = { σ with virt := τ.virt }
  moved : ∀ x ∈ moves,
    (τ.virt x.dst).setWidth x.storage.width = (h.value σ x.src).setWidth x.storage.width
  others : ∀ r, r.index.toNat < n → (∀ x ∈ moves, x.dst ≠ r) → τ.virt r = σ.virt r

variable {h : Host} {σ τ υ : Cpu} {n : Nat} {moves : List Move}
  {xs : List (Move × VReg)}

theorem Assigned.phys (ha : Assigned h n moves σ τ) : τ.phys = σ.phys :=
  by rw [ha.virtual]

theorem Assigned.status (ha : Assigned h n moves σ τ) : τ.status = σ.status :=
  by rw [ha.virtual]

/-- An operand outside of memory has the same value where its own register is the same. -/
theorem value_congr {o : Operand} (ho : o.Steady n)
    (hvirtual : τ = { σ with virt := τ.virt })
    (hreg : ∀ r, o.form = .virt r → τ.virt r = σ.virt r) : h.value τ o = h.value σ o := by
  obtain ⟨form, st⟩ := o
  rw [hvirtual]
  cases form with
  | virt r => exact hreg r rfl
  | mem a => exact ho.elim
  | _ => rfl

theorem step_move (x : Move) :
    h.step σ x.code =
      some (.falls (σ.setVirt x.storage.width x.dst (h.value σ x.src))) := by
  rw [Move.code, step_copy]
  rfl

/--
Moves none of which reads what an earlier one wrote can be made one after the other.
-/
theorem run_moves (hdst : (moves.map Move.dst).Nodup) (hsrc : ∀ x ∈ moves, x.src.Steady n)
    (hfree : moves.Pairwise fun x y => y.src.form ≠ .virt x.dst) (h : Host) (σ : Cpu) :
    ∃ τ, h.run (moves.map Move.code) σ = some (.falls τ) ∧ τ = { σ with virt := τ.virt } ∧
      (∀ x ∈ moves,
        (τ.virt x.dst).setWidth x.storage.width =
        (h.value σ x.src).setWidth x.storage.width) ∧
      ∀ r, (∀ x ∈ moves, x.dst ≠ r) → τ.virt r = σ.virt r := by
  induction moves generalizing σ with
  | nil => exact ⟨σ, rfl, rfl, by simp, fun _ _ => rfl⟩
  | cons x moves ih =>
    obtain ⟨hnew, hdst⟩ := List.nodup_cons.mp hdst
    obtain ⟨hx, hsrc⟩ := List.forall_mem_cons.mp hsrc
    obtain ⟨hread, hfree⟩ := List.pairwise_cons.mp hfree
    have hne : ∀ y ∈ moves, y.dst ≠ x.dst :=
      fun y hy heq => hnew (heq ▸ List.mem_map_of_mem hy)
    obtain ⟨τ, hrun, hvirtual, hmoved, hothers⟩ :=
      ih hdst hsrc hfree (σ.setVirt x.storage.width x.dst (h.value σ x.src))
    refine ⟨τ, ?_, hvirtual, List.forall_mem_cons.mpr ⟨?_, fun y hy => ?_⟩,
      fun r hr => ?_⟩
    · rw [List.map_cons, Host.run_cons_of_falls (step_move x)]
      exact hrun
    · rw [hothers x.dst hne]
      exact read_write_virt (h := h) x.dst x.storage _
    · rw [hmoved y hy, value_congr (hsrc y hy) rfl]
      rintro r hr
      exact if_neg fun heq : r = x.dst => hread y hy (heq ▸ hr)
    · obtain ⟨hrx, hr⟩ := List.forall_mem_cons.mp hr
      rw [hothers r hr]
      exact if_neg hrx.symm

/-- Code that makes moves at once, with the registers from `n` on as temporaries. -/
inductive ParallelCode (n : Nat) : List Move → List Code → Prop
  | direct {moves : List Move}
  (free : moves.Pairwise fun x y => y.src.form ≠ .virt x.dst) :
      ParallelCode n moves (moves.map Move.code)
  | staged {xs : List (Move × VReg)} (fresh : ∀ x ∈ xs, n ≤ x.2.index.toNat)
      (nodup : (xs.map Prod.snd).Nodup) :
      ParallelCode n (xs.map Prod.fst)
        ((xs.map fun x => x.1.stage x.2).map Move.code ++
          (xs.map fun x => x.1.unstage x.2).map Move.code)

namespace ParallelCode

/-- Temporaries disturb neither the sources nor each other. -/
theorem run_staged (hfresh : ∀ x ∈ xs, n ≤ x.2.index.toNat)
    (hnodup : (xs.map Prod.snd).Nodup) (hsrc : ∀ x ∈ xs, x.1.src.Steady n) (h : Host)
    (σ : Cpu) :
    ∃ τ, h.run ((xs.map fun x => x.1.stage x.2).map Move.code) σ = some (.falls τ) ∧
      τ = { σ with virt := τ.virt } ∧
      (∀ x ∈ xs, (τ.virt x.2).setWidth x.1.storage.width =
        (h.value σ x.1.src).setWidth x.1.storage.width) ∧
      ∀ r, r.index.toNat < n → τ.virt r = σ.virt r := by
  have hread : ∀ x ∈ xs, ∀ y ∈ xs, y.1.src.form ≠ .virt x.2 := by
    intro x hx y hy hform
    have hlt := hsrc y hy
    rw [Operand.Steady, hform] at hlt
    exact Nat.not_lt.mpr (hfresh x hx) hlt
  have hdst : ((xs.map fun x => x.1.stage x.2).map Move.dst).Nodup :=
    by rwa [List.map_map]
  obtain ⟨τ, hrun, hvirtual, hmoved, hothers⟩ :=
    run_moves hdst (List.forall_mem_map.mpr hsrc)
    (List.pairwise_map.mpr (List.pairwise_of_forall_mem_list hread)) h σ
  refine ⟨τ, hrun, hvirtual, List.forall_mem_map.mp hmoved, fun r hr => hothers r ?_⟩
  refine List.forall_mem_map.mpr fun x hx heq => Nat.not_lt.mpr (hfresh x hx) ?_
  rwa [show x.2 = r from heq]

/-- Reading temporaries disturbs nothing either. -/
theorem run_unstaged (hfresh : ∀ x ∈ xs, n ≤ x.2.index.toNat)
    (hdst : (xs.map fun x => x.1.dst).Nodup) (hlow : ∀ x ∈ xs, x.1.dst.index.toNat < n)
    (h : Host) (σ : Cpu) :
    ∃ τ, h.run ((xs.map fun x => x.1.unstage x.2).map Move.code) σ = some (.falls τ) ∧
      τ = { σ with virt := τ.virt } ∧
      (∀ x ∈ xs, (τ.virt x.1.dst).setWidth x.1.storage.width =
        (σ.virt x.2).setWidth x.1.storage.width) ∧
      ∀ r, (∀ x ∈ xs, x.1.dst ≠ r) → τ.virt r = σ.virt r := by
  have hread : ∀ x ∈ xs, ∀ y ∈ xs, (y.1.unstage y.2).src.form ≠ .virt x.1.dst := by
    intro x hx y hy hform
    have heq : y.2 = x.1.dst := by simpa [Move.unstage] using hform
    exact Nat.not_lt.mpr (hfresh y hy) (heq ▸ hlow x hx)
  have hdst' : ((xs.map fun x => x.1.unstage x.2).map Move.dst).Nodup :=
    by rwa [List.map_map]
  have hsrc : ∀ y ∈ xs.map fun x => x.1.unstage x.2, y.src.Steady (2 ^ 32) :=
    List.forall_mem_map.mpr fun x _ => x.2.index.toNat_lt
  obtain ⟨τ, hrun, hvirtual, hmoved, hothers⟩ := run_moves hdst' hsrc
    (List.pairwise_map.mpr (List.pairwise_of_forall_mem_list hread)) h σ
  exact ⟨τ, hrun, hvirtual, List.forall_mem_map.mp hmoved,
    fun r hr => hothers r (List.forall_mem_map.mpr hr)⟩

/-- Code for moves makes all of them at once. -/
theorem run {code : List Code} (hp : ParallelCode n moves code)
    (hdst : (moves.map Move.dst).Nodup) (hlow : ∀ x ∈ moves, x.dst.index.toNat < n)
    (hsrc : ∀ x ∈ moves, x.src.Steady n) (h : Host)
    (σ : Cpu) : ∃ τ, h.run code σ = some (.falls τ) ∧ Assigned h n moves σ τ := by
  cases hp with
  | direct free =>
    obtain ⟨τ, hrun, hvirtual, hmoved, hothers⟩ := run_moves hdst hsrc free h σ
    exact ⟨τ, hrun, hvirtual, hmoved, fun r _ => hothers r⟩
  | @staged xs fresh nodup =>
    rw [List.map_map] at hdst
    have hlow := List.forall_mem_map.mp hlow
    have hsrc := List.forall_mem_map.mp hsrc
    obtain ⟨τ, hrun, hvirtual, hmoved, hothers⟩ := run_staged fresh nodup hsrc h σ
    obtain ⟨υ, hrun', hvirtual', hmoved', hothers'⟩ := run_unstaged fresh hdst hlow h τ
    refine ⟨υ, (Host.run_append_of_falls hrun).trans hrun', ?_,
      List.forall_mem_map.mpr fun x hx => ?_, fun r hr hne => ?_⟩
    · rw [hvirtual', hvirtual]
    · rw [hmoved' x hx, hmoved x hx]
    · rw [hothers' r fun x hx => hne x.1 (List.mem_map_of_mem hx), hothers r hr]

end ParallelCode

end InstSelect.Machine
