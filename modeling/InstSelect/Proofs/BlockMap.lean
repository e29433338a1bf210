import Mathlib.Data.List.Perm.Subperm
import InstSelect.Proofs.Assembly

/-!
# The machine blocks of a function

A machine block is created when its source block is first referred to, by entering it or
by a branch to it, so the order of creation is not the order of the layout. `Mapped` lists
the source blocks in the order in which they got their machine blocks: the `k`-th of them
has the `k`-th machine block, under its own name, and nothing else is bound. Every step of
a lowering keeps such a list, at most extending it, and labels only name machine blocks
that are there.
-/

namespace InstSelect.Lowering

open Machine (Code)

variable {env : Env} {s s' t : State} {c c' : Current} {bs : List IR.BlockId}
  {b : IR.BlockId} {mb : Machine.BlockId} {parts : List Part}

/-- The name of the machine block of a source block. -/
def blockName (b : IR.BlockId) (data : IR.Block) : String :=
  data.name.getD s!"bb{b.index.toNat}"

/-- The source blocks that have machine blocks, in the order of these. -/
structure Mapped (env : Env) (s : State) (c : Current) (bs : List IR.BlockId) : Prop where
  nodup : bs.Nodup
  size : c.machine.blocks.size = bs.length
  bound : ∀ b mb, s.blocks.find? b = some mb ↔
    ∃ k : Nat, bs[k]? = some b ∧ mb = ⟨.ofNat k⟩
  own : ∀ (k : Nat) b, bs[k]? = some b → ∃ data, env.module.block b = .ok data ∧
    data.func = c.source ∧ c.machine.blocks[k]?.map (·.name) = some (blockName b data)
  labels : ∀ o ∈ c.machine.operands, ∀ mb, o.form = .label mb →
    mb.index.toNat < c.machine.blocks.size

namespace Mapped

/-- Names, operands and bindings decide what is mapped. -/
theorem congr (h : Mapped env s c bs) (hblocks : s'.blocks = s.blocks)
    (hsource : c'.source = c.source)
    (hsize : c'.machine.blocks.size = c.machine.blocks.size)
    (hnames : ∀ k : Nat, c'.machine.blocks[k]?.map (·.name) =
      c.machine.blocks[k]?.map (·.name))
    (hlabels : ∀ o ∈ c'.machine.operands, o ∈ c.machine.operands ∨
      ∀ mb, o.form = .label mb → mb.index.toNat < c.machine.blocks.size) :
    Mapped env s' c' bs where
  nodup := h.nodup
  size := hsize.trans h.size
  bound := by rw [hblocks]; exact h.bound
  own k b hk := by
    obtain ⟨data, hdata, hfunc, hname⟩ := h.own k b hk
    exact ⟨data, hdata, hfunc.trans hsource.symm, (hnames k).trans hname⟩
  labels o ho mb hform := by
    rw [hsize]
    rcases hlabels o ho with hold | hnew
    · exact h.labels o hold mb hform
    · exact hnew mb hform

/--
Block ids are 32-bit words, so a list without repetitions is not longer than their range.
-/
theorem length_le (h : Mapped env s c bs) : bs.length ≤ 2 ^ 32 := by
  have hnodup : (bs.map (·.index.toNat)).Nodup := by
    refine h.nodup.map_on fun b _ b' _ heq => ?_
    exact congrArg IR.BlockId.mk (UInt32.toNat_inj.mp heq)
  have hsub : bs.map (·.index.toNat) ⊆ List.range (2 ^ 32) := by
    intro k hk
    obtain ⟨b, -, rfl⟩ := List.mem_map.mp hk
    exact List.mem_range.mpr b.index.toNat_lt
  have hle := (hnodup.subperm hsub).length_le
  rwa [List.length_map, List.length_range] at hle

/-- The machine block of a listed block. -/
theorem block_of_bound (h : Mapped env s c bs) (hb : s.blocks.find? b = some mb) :
    ∃ data blk, env.module.block b = .ok data ∧ data.func = c.source ∧
      c.machine.blocks[mb.index.toNat]? = some blk ∧ blk.name = blockName b data := by
  obtain ⟨k, hk, rfl⟩ := (h.bound b mb).mp hb
  obtain ⟨data, hdata, hfunc, hname⟩ := h.own k b hk
  obtain ⟨blk, hblk, hname⟩ := Option.map_eq_some_iff.mp hname
  have hlt := (List.getElem?_eq_some_iff.mp hk).1
  refine ⟨data, blk, hdata, hfunc, ?_, hname⟩
  rw [UInt32.toNat_ofNat_of_lt' (Nat.lt_of_lt_of_le hlt h.length_le), hblk]

/-- Each machine block is the one of a source block. -/
theorem exists_bound (h : Mapped env s c bs)
    (hmb : mb.index.toNat < c.machine.blocks.size) :
    ∃ b ∈ bs, s.blocks.find? b = some mb := by
  have hget := List.getElem?_eq_getElem (h.size ▸ hmb)
  refine ⟨_, List.mem_of_getElem? hget, (h.bound _ mb).mpr ⟨mb.index.toNat, hget, ?_⟩⟩
  rw [UInt32.ofNat_toNat]

/-- A block that is not bound yet is not listed. -/
theorem not_mem (h : Mapped env s c bs) (hb : s.blocks.find? b = none) : b ∉ bs := by
  intro hmem
  obtain ⟨k, hk⟩ := List.getElem?_of_mem hmem
  have := (h.bound b _).mpr ⟨k, hk, rfl⟩
  rw [hb] at this
  cases this

/-- A new machine block. -/
theorem withBlock {data : IR.Block} (h : Mapped env s c bs)
    (hb : s.blocks.find? b = none) (hdata : env.module.block b = .ok data)
    (hsource : c.source = data.func) :
    Mapped env { s.withMachine c (c.machine.withBlock (blockName b data)) with
        blocks := s.blocks.insert b ⟨UInt32.ofNat c.machine.blocks.size⟩ }
      { c with machine := c.machine.withBlock (blockName b data) } (bs ++ [b]) := by
  have hnew := h.not_mem hb
  have hsize : (c.machine.withBlock (blockName b data)).blocks.size = bs.length + 1 := by
    rw [← h.size]
    exact Array.size_push ..
  refine ⟨?_, ?_, fun b' mb => ?_, fun k b' hk => ?_, fun o ho mb hform => ?_⟩
  · exact List.concat_eq_append ▸ h.nodup.concat hnew
  · rw [hsize, List.length_append, List.length_singleton]
  · show (s.blocks.insert b _).find? b' = some mb ↔ _
    rw [Bindings.find?_insert]
    split
    · next heq =>
      subst heq
      constructor
      · intro hmb
        cases hmb
        exact ⟨bs.length, by simp, by rw [h.size]⟩
      · rintro ⟨k, hk, rfl⟩
        obtain ⟨hlt, hget⟩ | hlast : (k < bs.length ∧ bs[k]? = some b) ∨
            k = bs.length := by
          grind
        · exact absurd (List.mem_of_getElem? hget) hnew
        · rw [hlast, h.size]
    · next hne =>
      rw [h.bound]
      refine exists_congr fun k => and_congr_left fun _ => ?_
      grind
  · by_cases hlt : k < bs.length
    · rw [List.getElem?_append_left hlt] at hk
      obtain ⟨d, hd, hfunc, hname⟩ := h.own k b' hk
      refine ⟨d, hd, hfunc, ?_⟩
      show (c.machine.blocks.push _)[k]?.map _ = _
      rw [Array.getElem?_push_lt (h.size ▸ hlt), ← Array.getElem?_eq_getElem, hname]
    · rw [List.getElem?_append_right (Nat.not_lt.mp hlt)] at hk
      obtain ⟨hzero, rfl⟩ : k = bs.length ∧ b' = b := by grind
      refine ⟨data, hdata, hsource.symm, ?_⟩
      show (c.machine.blocks.push _)[k]?.map _ = _
      rw [hzero, ← h.size, Array.getElem?_push_size]
      rfl
  · rw [hsize, ← h.size]
    exact Nat.lt_succ_of_lt (h.labels o ho mb hform)

end Mapped

theorem Grow.mapped {code : List Code} (h : Grow env s s' code) (hc : s.current = some c)
    (hm : Mapped env s c bs) : ∃ c' bs', s'.current = some c' ∧ Mapped env s' c' bs' := by
  cases h with
  | @operand d form st current isOpen admits =>
    cases hc.symm.trans current
    refine ⟨_, bs, rfl, hm.congr rfl rfl rfl (fun _ => rfl) fun o ho => ?_⟩
    rcases Array.mem_push.mp ho with hold | rfl
    · exact .inl hold
    · refine .inr fun mb hform => ?_
      cases hform
      exact admits
  | @inst d id b op ids os current block operands accepts exists_block =>
    cases hc.symm.trans current
    exact ⟨_, bs, rfl, hm.congr rfl rfl Array.size_setIfInBounds
      (Machine.names_setIfInBounds exists_block rfl) fun o ho => .inl ho⟩
  | @block d b data current unknown data_eq source =>
    cases hc.symm.trans current
    exact ⟨_, bs ++ [b], rfl, hm.withBlock unknown data_eq source⟩
  | value current =>
    cases hc.symm.trans current
    exact ⟨c, bs, hc, hm.congr rfl rfl rfl (fun _ => rfl) fun o ho => .inl ho⟩
  | reserve current =>
    cases hc.symm.trans current
    exact ⟨_, bs, rfl, hm.congr rfl rfl rfl (fun _ => rfl) fun o ho => .inl ho⟩

/-- Growth and placed copies keep the list. -/
theorem Follows.mapped (h : Follows env s s') (hc : s.current = some c)
    (hm : Mapped env s c bs) :
    ∃ c' bs', s'.current = some c' ∧ Mapped env s' c' bs' := by
  induction h generalizing c bs with
  | refl => exact ⟨c, bs, hc, hm⟩
  | grow hg => exact hg.mapped hc hm
  | edit current size names =>
    cases hc.symm.trans current
    exact ⟨_, bs, rfl, hm.congr rfl rfl size names fun o ho => .inl ho⟩
  | trans _ _ ih ih' =>
    obtain ⟨d, ds, hd, hmd⟩ := ih hc hm
    exact ih' hd hmd

theorem Segments.mapped {segs : List Segment} (h : Segments env s segs s')
    (hs : Settled env s c)
    (hm : Mapped env s c bs) : ∃ c' bs', Settled env s' c' ∧ Mapped env s' c' bs' := by
  induction h generalizing c bs with
  | nil => exact ⟨c, bs, hs, hm⟩
  | cons run _ _ ih =>
    obtain ⟨i, u, d, code, -, hpath, hb, hd, -⟩ := lowerInst_lowers hs run
    obtain ⟨e, es, he, hme⟩ := (Follows.of_path hpath).mapped hs.current hm
    cases (hb.current.trans he).symm.trans hd.current
    refine ih hd (hme.congr ?_ rfl rfl (fun _ => rfl) fun o ho => .inl ho)
    cases hb <;> rfl

/-- Lowering blocks keeps the list. -/
theorem Parts.mapped (h : Parts env s parts s') (hs : Settled env s c)
    (hm : Mapped env s c bs) : ∃ c' bs', Settled env s' c' ∧ Mapped env s' c' bs' := by
  induction h generalizing c bs with
  | nil => exact ⟨c, bs, hs, hm⟩
  | @cons s t u v w s' b id data segs parts enter direct block segments insts layout
      rest ih =>
    obtain ⟨hpath, -, -, -⟩ := blockFor_path enter
    obtain ⟨d, ds, hd, hmd⟩ := (Follows.of_path hpath).mapped hs.current hm
    obtain ⟨e, he, -⟩ := enter_block hs enter direct
    have hdirect := runs_setInsertionBlock.mp direct
    have hme : Mapped env u e ds := by
      subst hdirect
      cases (congrArg (Option.map _) hd).symm.trans he.current
      exact hmd.congr rfl rfl rfl (fun _ => rfl) fun o ho => .inl ho
    obtain ⟨x, xs, hx, hmx⟩ := segments.mapped he hme
    obtain ⟨y, hy, -⟩ := leave_block hx layout
    obtain ⟨z, f, hz, happend, rfl⟩ := runs_change.mp layout
    cases hx.current.symm.trans hz
    obtain ⟨-, -, -, -, rfl⟩ := Machine.Function.appendBlock_eq_ok.mp happend
    cases hy.current
    exact ih hy (hmx.congr rfl rfl rfl (fun _ => rfl) fun o ho => .inl ho)

/-- A function that was opened has no blocks. -/
theorem mapped_of_beginFunction {func : IR.FuncId} {w : Unit}
    (h : Runs (beginFunction func) env s w s')
    (hc : s'.current = some c) : Mapped env s' c [] := by
  obtain ⟨d, hd, hunfilled, -, -, hblocks, -⟩ := settled_of_beginFunction h
  cases hc.symm.trans hd.current
  refine ⟨List.nodup_nil,
    by rw [hunfilled.blocks]; rfl, fun b mb => ?_, by simp, fun o ho mb hform => ?_⟩
  · rw [hblocks]
    simp [Bindings.find?_empty]
  · obtain ⟨r, hr⟩ := hunfilled.operands o ho
    cases hr.symm.trans hform

/-- Blocks that were lowered are bound, and have the instructions of their source. -/
theorem Parts.bound (h : Parts env s parts s') (hs : Settled env s c) :
    ∀ p ∈ parts, s'.blocks.find? p.block = some p.id ∧
      ∃ data, env.module.block p.block = .ok data ∧
        p.segments.map Segment.inst = data.insts := by
  induction h generalizing c with
  | nil => simp
  | @cons s t u v w s' b id data segs parts enter direct block segments insts layout
      rest ih =>
    obtain ⟨d, hd, -⟩ := enter_block hs enter direct
    obtain ⟨e, he, huv, -⟩ := segments.gains hd
    obtain ⟨e', he', hvw, -⟩ := leave_block he layout
    obtain ⟨c', hc', hleads⟩ := rest.leads he'
    refine List.forall_mem_cons.mpr ⟨⟨?_, data, block, insts⟩, ih he'⟩
    obtain ⟨-, -, -, hbound⟩ := blockFor_path enter
    refine ((huv.trans hvw.leads).trans hleads).blocks b id ?_
    rw [runs_setInsertionBlock.mp direct]
    exact hbound

end InstSelect.Lowering
