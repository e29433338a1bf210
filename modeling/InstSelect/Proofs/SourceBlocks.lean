import Mathlib.Data.List.Nodup
import InstSelect.Proofs.LinkedModules
import InstSelect.Proofs.Sessions
import InstSelect.Proofs.WellTyped

/-!
# Source blocks and machine blocks

In a linked module the blocks of a function, and the instructions of its blocks, are all
different. While a function is lowered each of its blocks is given a machine block when it
is first referred to, and different blocks are given different ones.
-/

namespace InstSelect.IR.Module

variable {m : Module} {func : FuncId} {f : Function} {b : BlockId} {data : Block}
  {id : InstId}

theorem instsOf_eq (hb : m.block b = .ok data) : m.instsOf b = data.insts := by
  rw [instsOf, hb]

theorem arity_eq {i : Inst} (hi : m.inst id = .ok i) :
    m.arity id = i.operands.length := by
  rw [arity, hi]

theorem weight_cons (id : InstId) (ids : List InstId) :
    m.weight (id :: ids) = 1 + m.arity id + m.weight ids := List.sum_cons

theorem weight_append (xs ys : List InstId) :
    m.weight (xs ++ ys) = m.weight xs + m.weight ys := by
  rw [weight, List.map_append, List.sum_append]
  rfl

namespace Linked

/-- The blocks of a function exist, and belong to it. -/
theorem block_of_mem (hm : m.Linked) (hf : m.function func = .ok f) (hb : b ∈ f.blocks) :
    ∃ data, m.block b = .ok data ∧ data.func = func := by
  obtain ⟨data, hdata, hfunc⟩ := (hm.functions _ f (function_eq_ok.mp hf)).blocks b hb
  rw [UInt32.ofNat_toNat] at hfunc
  exact ⟨data, block_eq_ok.mpr hdata, hfunc⟩

/-- A function knows all of its blocks. -/
theorem mem_blocks (hm : m.Linked) (hb : m.block b = .ok data)
    (hf : m.function data.func = .ok f) :
    b ∈ f.blocks := by
  obtain ⟨g, hg, hmem, -⟩ := (hm.blocks _ data (block_eq_ok.mp hb)).func
  cases (function_eq_ok.mp hf).symm.trans hg
  rwa [UInt32.ofNat_toNat] at hmem

/-- The instructions of a block exist, and stand in it. -/
theorem inst_of_mem (hm : m.Linked) (hid : id ∈ m.instsOf b) :
    ∃ i, m.inst id = .ok i ∧ i.block = b := by
  unfold instsOf at hid
  split at hid
  · next data hb =>
    obtain ⟨i, hi, hblock⟩ := (hm.blocks _ data (block_eq_ok.mp hb)).insts id hid
    rw [UInt32.ofNat_toNat] at hblock
    exact ⟨i, inst_eq_ok.mpr hi, hblock⟩
  · cases hid

theorem instsOf_nodup (hm : m.Linked) (b : BlockId) : (m.instsOf b).Nodup := by
  unfold instsOf
  split
  · next data hb => exact (hm.blocks _ data (block_eq_ok.mp hb)).nodup
  · exact List.nodup_nil

/-- No instruction stands twice in a function. -/
theorem order_nodup (hm : m.Linked) (hf : m.function func = .ok f) :
    (m.order f).Nodup := by
  refine List.nodup_flatMap.mpr ⟨fun b _ => hm.instsOf_nodup b, ?_⟩
  refine (hm.functions _ f (function_eq_ok.mp hf)).nodup.imp fun {b b'} hne id hid hid' =>
    hne ?_
  obtain ⟨i, hi, hblock⟩ := hm.inst_of_mem hid
  obtain ⟨i', hi', hblock'⟩ := hm.inst_of_mem hid'
  cases hi.symm.trans hi'
  exact hblock.symm.trans hblock'

end Linked

end InstSelect.IR.Module

namespace InstSelect.Lowering

open Machine (Storage Code)

variable {env : Env} {s s' : State} {func : IR.FuncId} {f : IR.Function}
  {sts : List Storage} {c c' : Current} {code : List Code}

/-- Different source blocks have different machine blocks. -/
def Separate (s : State) : Prop :=
  ∀ b b' mb, s.blocks.find? b = some mb → s.blocks.find? b' = some mb → b = b'

theorem Grow.separate (h : Grow env s s' code) (hs : Session env func f sts s c)
    (hc' : s'.current = some c') (hsmall : c'.machine.blocks.size ≤ 2 ^ 32)
    (hsep : Separate s) :
    Separate s' := by
  cases h with
  | @block d b data current unknown hdata source =>
    cases hs.current.symm.trans current
    cases hc'
    have hsize : c.machine.blocks.size + 1 ≤ 2 ^ 32 := by
      rwa [show (c.machine.withBlock _).blocks.size = _ from Array.size_push ..] at hsmall
    -- The new block comes after all that were given out.
    have hnew : ∀ b', s.blocks.find? b' ≠ some ⟨UInt32.ofNat c.machine.blocks.size⟩ := by
      intro b' hb'
      have hlt := hs.blocks b' _ hb'
      rw [UInt32.toNat_ofNat_of_lt' hsize] at hlt
      exact Nat.lt_irrefl _ hlt
    intro b1 b2 mb h1 h2
    rw [Bindings.find?_insert] at h1 h2
    split at h1 <;> split at h2
    · next heq heq' => rw [← heq, heq']
    · cases h1
      exact absurd h2 (hnew b2)
    · cases h2
      exact absurd h1 (hnew b1)
    · exact hsep b1 b2 mb h1 h2
  | operand | inst | value | reserve => exact hsep

end InstSelect.Lowering
