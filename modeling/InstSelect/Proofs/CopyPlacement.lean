import InstSelect.Proofs.CodeSegments

/-!
# Where the copies of phis go

Once all blocks are lowered, the copies of the phis are placed. Each goes right before the
first instruction that leaves its block, after the copies that are there already, so a
block becomes its old code with a list of copies inserted at that one point. `Placing`
says so of a stretch of the placement, with a property of the registers that its copies
write; stretches compose by appending their copies. `Placed` says what the copies of one
block are: one for each pair that was collected for it, or two, by way of a temporary.

No block is added on the way: a source that names a block would be a label, which no copy
accepts.
-/

namespace InstSelect.Machine

variable {xs ys insts : List Inst}

/-- Code with copies right before the first instruction that leaves the block. -/
def withCopies (copies insts : List Inst) : List Inst :=
  insts.takeWhile (fun i => !i.op.isTerminator) ++ copies ++
    insts.dropWhile (fun i => !i.op.isTerminator)

@[simp]
theorem withCopies_nil (insts : List Inst) : withCopies [] insts = insts := by
  simp [withCopies]

theorem withCopies_inj (h : withCopies xs insts = withCopies ys insts) : xs = ys :=
  List.append_cancel_left (List.append_cancel_right h)

/-- Copies placed later go after those that are there. -/
theorem withCopies_append (hxs : ∀ x ∈ xs, x.op.isTerminator = false) :
    withCopies ys (withCopies xs insts) = withCopies (xs ++ ys) insts := by
  have hfront : ∀ x ∈ insts.takeWhile (fun i => !i.op.isTerminator) ++ xs,
      (!x.op.isTerminator) = true := by
    intro x hx
    rcases List.mem_append.mp hx with hx | hx
    · exact List.all_eq_true.mp List.all_takeWhile x hx
    · rw [hxs x hx]
      rfl
  have hback : (insts.dropWhile fun i => !i.op.isTerminator).takeWhile
      (fun i => !i.op.isTerminator) = [] := by
    induction insts with
    | nil => rfl
    | cons x insts ih =>
      rw [List.dropWhile_cons]
      split
      · next hx =>
        refine ih fun y hy => hfront y ?_
        rw [List.takeWhile_cons, if_pos hx]
        exact List.mem_cons_of_mem _ hy
      · next hx => rw [List.takeWhile_cons, if_neg hx]
  have hdrop : ∀ zs : List Inst, zs.takeWhile (fun i => !i.op.isTerminator) = [] →
      zs.dropWhile (fun i => !i.op.isTerminator) = zs := by
    intro zs hzs
    have := List.takeWhile_append_dropWhile (p := fun i : Inst => !i.op.isTerminator)
      (l := zs)
    rwa [hzs, List.nil_append] at this
  rw [withCopies, withCopies, List.takeWhile_append_of_pos hfront,
    List.dropWhile_append_of_pos hfront, hback, hdrop _ hback, withCopies]
  simp

end InstSelect.Machine

namespace InstSelect.Lowering

open IR (ValueId InstId)
open Machine (Storage Operand OperandId VReg withCopies)

variable {env : Env} {s s' t : State} {c : Current} {P : Operand → Prop} {n : Nat}
  {copies : Machine.BlockId → List Machine.Inst} {xs : List Copy} {mb : Machine.BlockId}
  {insts : List Machine.Inst} {w : Unit} {edges edges' : List EdgeCopies} {k : InstId}
  {entries : List Entry} {i : Machine.Inst} {dst id : OperandId} {v : ValueId}
  {x : Copy}

/-- A copy of an operand that copies accept, into a register with a property. -/
def IsCopy (P : Operand → Prop) (s : State) (i : Machine.Inst) : Prop :=
  ∃ dst src d o, i = ⟨o.copyOp, [dst, src]⟩ ∧ s.Holds dst d ∧ s.Holds src o ∧
    o.copyOp.accepts [d, o] = true ∧
    s.Stands dst P

theorem IsCopy.op (h : IsCopy P s i) : i.op = .mov ∨ i.op = .lea := by
  obtain ⟨-, -, -, o, rfl, -⟩ := h
  show (if o.needsAddress then _ else _) = _ ∨ (if o.needsAddress then _ else _) = _
  split
  · exact .inr rfl
  · exact .inl rfl

theorem IsCopy.stays (h : IsCopy P s i) : i.op.isTerminator = false := by
  rcases h.op with hop | hop <;> rw [hop] <;> rfl

theorem IsCopy.later (h : IsCopy P s i) (hf : Follows env s s') : IsCopy P s' i := by
  obtain ⟨dst, src, d, o, rfl, hd, ho, haccepts, hdst⟩ := h
  exact ⟨dst, src, d, o, rfl, hd.later hf, ho.later hf, haccepts, hdst.later hf⟩

/-! ## Blocks are not added -/

/-- The function being built has the same blocks in two states, up to their code. -/
def SameBlocks (s s' : State) : Prop :=
  ∀ c, s.current = some c → ∃ c', s'.current = some c' ∧
    ∀ k : Nat, c'.machine.blocks[k]?.map (·.name) = c.machine.blocks[k]?.map (·.name)

namespace SameBlocks

theorem refl (s : State) : SameBlocks s s := fun c hc => ⟨c, hc, fun _ => rfl⟩

theorem trans (h : SameBlocks s t) (h' : SameBlocks t s') : SameBlocks s s' := by
  intro c hc
  obtain ⟨d, hd, hnames⟩ := h c hc
  obtain ⟨c', hc', hnames'⟩ := h' d hd
  exact ⟨c', hc', fun k => (hnames' k).trans (hnames k)⟩

/-- Other changes to the function than to its blocks. -/
theorem of_machine {m : Machine.Function} (hc : s.current = some c)
    (hm : m.blocks = c.machine.blocks) :
    SameBlocks s (s.withMachine c m) := by
  intro d hd
  cases hc.symm.trans hd
  exact ⟨_, rfl, fun k => by rw [← hm]⟩

end SameBlocks

/-- An operand that names no block. -/
def NotLabel (o : Operand) : Prop := ∀ mb, o.form ≠ .label mb

theorem notLabel_of_accepts {d o : Operand} (h : o.copyOp.accepts [d, o] = true) :
    NotLabel o := by
  rintro mb hform
  obtain ⟨form, st⟩ := o
  cases hform
  simp [Operand.copyOp, Operand.needsAddress, Machine.Op.accepts, Operand.shape,
    Machine.Shape.isSource] at h

theorem IsCopy.source {src : OperandId} (h : IsCopy P s i)
    (hi : i.operands = [dst, src]) : ∃ o, s.Holds src o ∧ NotLabel o := by
  obtain ⟨_, _, d, o, rfl, -, ho, haccepts, -⟩ := h
  cases hi
  exact ⟨o, ho, notLabel_of_accepts haccepts⟩

/-- A new operand adds a block only if it is a label. -/
theorem freshOperand_sameBlocks (h : Runs (freshOperand v) env s id s') :
    SameBlocks s s' ∨ s'.Stands id fun o => ¬ NotLabel o := by
  simp only [freshOperand, runs_bind, runs_sourceModule, runs_check] at h
  obtain ⟨_, _, ⟨rfl, rfl⟩, ⟨ty, kind⟩, _, ⟨hv, rfl⟩, h⟩ := h
  cases kind with
  | instruction inst => exact absurd h not_runs_violateIn
  | argument func index =>
    obtain ⟨rfl, -⟩ := argumentOperand_leaf hv h
    exact .inl (.refl s)
  | constant k =>
    obtain ⟨-, -, n, st, -, -, -, himm⟩ := constantOperand_adds h
    obtain ⟨c, hc, -, -, -, rfl⟩ := runs_imm.mp himm
    exact .inl (.of_machine hc rfl)
  | function g =>
    simp only [runs_bind, runs_check, runs_theAbi] at h
    obtain ⟨f, _, ⟨-, rfl⟩, _, _, ⟨rfl, rfl⟩, name, _, ⟨-, rfl⟩, h⟩ := h
    obtain ⟨c, hc, -, -, -, rfl⟩ := runs_symbol.mp h
    exact .inl (.of_machine hc rfl)
  | global g =>
    simp only [runs_bind, runs_check] at h
    obtain ⟨data, _, ⟨-, rfl⟩, h⟩ := h
    obtain ⟨c, hc, -, -, -, rfl⟩ := runs_symbol.mp h
    exact .inl (.of_machine hc rfl)
  | block b =>
    simp only [runs_bind] at h
    obtain ⟨mb, t, -, h⟩ := h
    obtain ⟨c, hc, -, -, -, rfl, rfl⟩ := runs_blockRef.mp h
    have hnames := Machine.Function.names_extend c.machine (.label mb) .void
    refine .inr ((State.Stands.of_get rfl fun A hA => hnames.get? (hA _ rfl)).imp ?_)
    rintro o rfl hlabel
    exact hlabel mb rfl

theorem resolve_sameBlocks (h : Runs (resolve v) env s id s') :
    SameBlocks s s' ∨ s'.Stands id fun o => ¬ NotLabel o := by
  simp only [resolve, runs_bind, runs_lookupValue] at h
  obtain ⟨r, _, ⟨hr, rfl⟩, h⟩ := h
  cases r with
  | some id' =>
    obtain ⟨-, rfl⟩ := runs_pure.mp h
    exact .inl (.refl s)
  | none =>
    simp only [runs_bind, runs_bindValue, runs_pure] at h
    obtain ⟨id', t, hfresh, _, _, ⟨-, rfl⟩, rfl, rfl⟩ := h
    exact (freshOperand_sameBlocks hfresh).imp id fun hlabel => hlabel.of_current rfl

/-- Operands and registers that are added change no code. -/
theorem instsOf_of_path (hc : s.current = some c) (hp : Path env s s' [])
    (mb : Machine.BlockId) :
    s'.instsOf mb = s.instsOf mb := by
  obtain ⟨c', hc', -⟩ := hp.grown hc
  obtain ⟨xs, hxs, hdecodes⟩ := hp.gains hc'
  cases hdecodes
  exact hxs.instsOf_nil mb

/-- Between two states, only copies were placed, into registers with a property. -/
structure Placing (env : Env) (P : Operand → Prop) (s s' : State)
    (copies : Machine.BlockId → List Machine.Inst) : Prop where
  follows : Follows env s s'
  insts : ∀ mb, s'.instsOf mb = withCopies (copies mb) (s.instsOf mb)
  copies : ∀ mb, ∀ i ∈ copies mb, IsCopy P s' i
  blocks : s'.Small → SameBlocks s s'

namespace Placing

theorem refl (s : State) : Placing env P s s fun _ => [] :=
  ⟨.refl s, fun _ => (Machine.withCopies_nil _).symm, by simp, fun _ => .refl s⟩

/-- A new register is no copy. -/
theorem of_newVReg {st : Storage} (h : Runs (newVReg st) env s id s') :
    Placing env P s s' fun _ => [] := by
  obtain ⟨-, -, -, hpath, -⟩ := newVReg_adds h
  obtain ⟨c, hc, -, -, -, -, rfl⟩ := runs_newVReg.mp h
  exact ⟨.of_path hpath,
    fun mb => (instsOf_of_path hc hpath mb).trans (Machine.withCopies_nil _).symm,
    by simp, fun _ => .of_machine hc rfl⟩

theorem trans {xs ys : Machine.BlockId → List Machine.Inst} (h : Placing env P s t xs)
    (h' : Placing env P t s' ys) : Placing env P s s' fun mb => xs mb ++ ys mb where
  follows := h.follows.trans h'.follows
  insts mb := by
    rw [h'.insts, h.insts, Machine.withCopies_append fun x hx => (h.copies mb x hx).stays]
  copies mb i hi := by
    rcases List.mem_append.mp hi with hold | hnew
    · exact (h.copies mb i hold).later h'.follows
    · exact h'.copies mb i hnew
  blocks hsmall := (h.blocks (hsmall.earlier h'.follows)).trans (h'.blocks hsmall)

theorem current (h : Placing env P s s' copies) (hc : s.current = some c) :
    ∃ c', s'.current = some c' ∧ s.vregs ≤ s'.vregs := by
  obtain ⟨c', hc', hg⟩ := h.follows.grown hc
  refine ⟨c', hc', ?_⟩
  rw [State.vregs_eq hc, State.vregs_eq hc']
  exact hg.vregs

end Placing

/-- Instructions in one block and nothing elsewhere. -/
def only (mb : Machine.BlockId) (insts : List Machine.Inst) :
    Machine.BlockId → List Machine.Inst :=
  fun mb' => if mb' = mb then insts else []

theorem Placing.trans_only {xs ys : List Machine.Inst}
    (h : Placing env P s t (only mb xs))
    (h' : Placing env P t s' (only mb ys)) : Placing env P s s' (only mb (xs ++ ys)) := by
  have happend : (fun mb' => only mb xs mb' ++ only mb ys mb') = only mb (xs ++ ys) := by
    funext mb'
    unfold only
    split
    · rfl
    · rfl
  exact happend ▸ h.trans h'

theorem Placing.only_nil (h : Placing env P s s' fun _ => []) :
    Placing env P s s' (only mb []) := by
  have hnil : only mb [] = fun _ => [] := by
    funext mb'
    exact ite_self _
  exact hnil ▸ h

/-! ## Placing the copies of one predecessor -/

/-- The instructions of copies, one for each. -/
def Copies (s : State) (xs : List Copy) (insts : List Machine.Inst) : Prop :=
  List.Forall₂ (fun x i => ∃ d o, s.Holds x.dst d ∧ s.Holds x.src o ∧
    i = ⟨o.copyOp, [x.dst, x.src]⟩) xs insts

theorem Copies.later (h : Copies s xs insts) (hf : Follows env s s') :
    Copies s' xs insts := by
  refine h.imp fun x i hx => ?_
  obtain ⟨d, o, hd, ho, hi⟩ := hx
  exact ⟨d, o, hd.later hf, ho.later hf, hi⟩

theorem insertCopy_placing {copy : Copy} (hdst : s.Stands copy.dst P)
    (h : Runs (insertCopy mb copy) env s w s') :
    ∃ i, Copies s' [copy] [i] ∧ Placing env P s s' (only mb [i]) := by
  obtain ⟨c, o, d, b, hc, -, ho, hd, haccepts, hb, -, rfl⟩ := runs_insertCopy.mp h
  generalize hi : (⟨o.copyOp, [copy.dst, copy.src]⟩ : Machine.Inst) = i
  have hlt := (Array.getElem?_eq_some_iff.mp hb).1
  have hfollows : Follows env s (s.withMachine c (c.machine.inserted mb b i)) :=
    follows_inserted i hc hb
  have hd' : s.Holds copy.dst d := ⟨c, hc, hd⟩
  have ho' : s.Holds copy.src o := ⟨c, hc, ho⟩
  refine ⟨i, .cons ⟨d, o, hd'.later hfollows, ho'.later hfollows, hi.symm⟩ .nil, hfollows,
    fun mb' => ?_, fun mb' x hx => ?_, fun _ e he => ?_⟩
  · simp only [State.instsOf, hc, Option.bind_some]
    show ((c.machine.blocks.setIfInBounds _ _)[mb'.index.toNat]?.map _).getD [] = _
    unfold only
    by_cases hmb : mb' = mb
    · subst hmb
      rw [if_pos rfl, hb, Array.getElem?_setIfInBounds_self_of_lt hlt]
      simp [withCopies, Machine.Block.insertBeforeTerminator]
    · have hne : mb.index.toNat ≠ mb'.index.toNat := fun heq =>
        hmb (congrArg Machine.BlockId.mk (UInt32.toNat_inj.mp heq.symm))
      rw [if_neg hmb, Machine.withCopies_nil, Array.getElem?_setIfInBounds_ne hne]
  · unfold only at hx
    split at hx
    · cases List.mem_singleton.mp hx
      exact ⟨copy.dst, copy.src, d, o, hi.symm, hd'.later hfollows, ho'.later hfollows,
        haccepts, hdst.later hfollows⟩
    · cases hx
  · cases hc.symm.trans he
    exact ⟨_, rfl, Machine.names_setIfInBounds hb rfl⟩

/-- Copies may write the registers they are to write. -/
def Writable (P : Operand → Prop) (s : State) (xs : List Copy) : Prop :=
  ∀ x ∈ xs, s.Stands x.dst P

theorem Writable.later (h : Writable P s xs) (hf : Follows env s s') : Writable P s' xs :=
  fun x hx => (h x hx).later hf

/-- All copies that were collected may be placed. -/
def AllWritable (P : Operand → Prop) (s : State) (edges : List EdgeCopies) : Prop :=
  ∀ e ∈ edges, Writable P s e.copies

theorem AllWritable.later (h : AllWritable P s edges) (hf : Follows env s s') :
    AllWritable P s' edges :=
  fun e he => (h e he).later hf

theorem insertCopies_placing (hxs : Writable P s xs)
    (h : Runs (xs.forM (insertCopy mb)) env s w s') :
    ∃ insts, Copies s' xs insts ∧ Placing env P s s' (only mb insts) := by
  induction xs generalizing s with
  | nil =>
    obtain rfl := runs_forM_nil.mp h
    exact ⟨[], .nil, (Placing.refl s).only_nil⟩
  | cons x xs ih =>
    obtain ⟨t, hx, hrest⟩ := runs_forM_cons.mp h
    obtain ⟨hhead, htail⟩ := List.forall_mem_cons.mp hxs
    obtain ⟨i, hi, hfirst⟩ := insertCopy_placing hhead hx
    obtain ⟨insts, hinsts, hlast⟩ := ih (Writable.later htail hfirst.follows) hrest
    exact ⟨_, List.rel_append (hi.later hlast.follows) hinsts, hfirst.trans_only hlast⟩

/-- A copy that goes by way of a temporary. -/
structure Detour where
  copy : Copy
  temporary : OperandId
  register : VReg

namespace Detour

def first (x : Detour) : Copy := ⟨x.temporary, x.copy.src⟩

def second (x : Detour) : Copy := ⟨x.copy.dst, x.temporary⟩

/-- The temporary is a register of the class of the destination. -/
def Stands (s : State) (x : Detour) : Prop :=
  s.Stands x.temporary fun o => ∃ d, s.Holds x.copy.dst d ∧
    o = ⟨.virt x.register, d.storage⟩

theorem Stands.later {x : Detour} (h : x.Stands s) (hf : Follows env s s') :
    x.Stands s' := by
  refine (State.Stands.later h hf).imp fun o ho => ?_
  obtain ⟨d, hd, heq⟩ := ho
  exact ⟨d, hd.later hf, heq⟩

end Detour

/-- A source goes to a fresh temporary; where the copy goes stays the same. -/
theorem stageCopy_placing {y : Copy} (hn : n ≤ s.vregs) (hfresh : ∀ o, Fresh n o → P o)
    (h : Runs (stageCopy mb x) env s y s') :
    ∃ z : Detour, z.copy = x ∧ z.second = y ∧ z.register.index.toNat = s.vregs ∧
      z.Stands s' ∧
      s'.vregs = s.vregs + 1 ∧
      ∃ i, Copies s' [z.first] [i] ∧ Placing env P s s' (only mb [i]) := by
  simp only [stageCopy, storage, runs_bind, runs_pure] at h
  obtain ⟨_, _, ⟨d, _, hd, rfl, rfl⟩, temporary, t, hnew, _, u, hinsert, rfl, rfl⟩ := h
  obtain ⟨rfl, hholds⟩ := holds_of_operand hd
  obtain ⟨r, hr, hvregs, hpath, htemp⟩ := newVReg_stands hnew
  have htemp' : t.Stands temporary P := by
    refine htemp.imp ?_
    rintro o rfl
    exact hfresh _ ⟨r, rfl, by omega⟩
  obtain ⟨i, hi, hplace⟩ := insertCopy_placing htemp' hinsert
  have hstands : (Detour.mk x temporary r).Stands t := htemp.imp fun o ho =>
    ⟨d, hholds.later (.of_path hpath), ho⟩
  have hvregs' : u.vregs = t.vregs := by
    obtain ⟨e, -, -, -, he, -, -, -, -, -, -, rfl⟩ := runs_insertCopy.mp hinsert
    exact (State.vregs_eq he).symm
  exact ⟨⟨x, temporary, r⟩, rfl, rfl, hr, hstands.later hplace.follows,
    hvregs'.trans hvregs, i, hi, (Placing.of_newVReg hnew).only_nil.trans_only hplace⟩

theorem stageCopies_placing {ys : List Copy} (hc : s.current = some c) (hn : n ≤ s.vregs)
    (hfresh : ∀ o, Fresh n o → P o) (h : Runs (xs.mapM (stageCopy mb)) env s ys s') :
    ∃ zs : List Detour, zs.map Detour.copy = xs ∧ zs.map Detour.second = ys ∧
      zs.map (·.register.index.toNat) = List.range' s.vregs xs.length ∧
        (∀ z ∈ zs, z.Stands s') ∧
      ∃ insts, Copies s' (zs.map Detour.first) insts ∧
        Placing env P s s' (only mb insts) := by
  induction xs generalizing s ys c with
  | nil =>
    obtain ⟨rfl, rfl⟩ := runs_mapM_nil.mp h
    exact ⟨[], rfl, rfl, rfl, by simp, [], .nil, (Placing.refl _).only_nil⟩
  | cons x xs ih =>
    obtain ⟨y, t, ys, hstage, hrest, rfl⟩ := runs_mapM_cons.mp h
    obtain ⟨z, rfl, rfl, hz, hstands, hvregs, i, hi, hfirst⟩ :=
      stageCopy_placing hn hfresh hstage
    obtain ⟨d, hd, hle⟩ := hfirst.current hc
    obtain ⟨zs, rfl, rfl, hnumbers, hzs, insts, hinsts, hlast⟩ :=
      ih hd (Nat.le_trans hn hle) hrest
    refine ⟨z :: zs, rfl, rfl, ?_,
      List.forall_mem_cons.mpr ⟨hstands.later hlast.follows, hzs⟩, i :: insts,
      List.rel_append (hi.later hlast.follows) hinsts, hfirst.trans_only hlast⟩
    rw [List.map_cons, List.length_cons, List.range'_succ, hz, hnumbers, hvregs]

/--
The instructions that make the copies of one block, with the registers from `n` on as
temporaries.
-/
inductive Placed (s : State) (n : Nat) : List Copy → List Machine.Inst → Prop
  | direct {xs : List Copy} {insts : List Machine.Inst} (free : overlapping xs = false)
      (copies : Copies s xs insts) : Placed s n xs insts
  | staged {zs : List Detour} {firsts seconds : List Machine.Inst}
      (fresh : ∀ z ∈ zs, n ≤ z.register.index.toNat)
      (nodup : (zs.map Detour.register).Nodup) (stands : ∀ z ∈ zs, z.Stands s)
      (first : Copies s (zs.map Detour.first) firsts)
      (second : Copies s (zs.map Detour.second) seconds) :
      Placed s n (zs.map Detour.copy) (firsts ++ seconds)

namespace Placed

theorem later (h : Placed s n xs insts) (hf : Follows env s s') :
    Placed s' n xs insts := by
  cases h with
  | direct free copies => exact .direct free (copies.later hf)
  | staged fresh nodup stands first second =>
    exact .staged fresh nodup (fun z hz => (stands z hz).later hf) (first.later hf)
      (second.later hf)

theorem nil (s : State) (n : Nat) : Placed s n [] [] := .direct rfl .nil

/-- No copies take no instructions. -/
theorem eq_nil (h : Placed s n xs insts) (hxs : xs = []) : insts = [] := by
  cases h with
  | direct _ copies =>
    subst hxs
    exact List.forall₂_nil_left_iff.mp copies
  | @staged zs firsts seconds _ _ _ first second =>
    obtain rfl := List.map_eq_nil_iff.mp hxs
    rw [List.forall₂_nil_left_iff.mp first, List.forall₂_nil_left_iff.mp second]
    rfl

/-- The source of each copy is the source of an instruction. -/
theorem source (h : Placed s n xs insts) (hx : x ∈ xs) :
    ∃ i ∈ insts, ∃ dst, i.operands = [dst, x.src] := by
  cases h with
  | direct _ copies =>
    obtain ⟨_, hi, _, o, -, -, rfl⟩ := exists_left_of_forall₂ copies.flip x hx
    exact ⟨_, hi, _, rfl⟩
  | @staged zs firsts seconds _ _ _ first _ =>
    obtain ⟨z, hz, rfl⟩ := List.mem_map.mp hx
    obtain ⟨_, hi, _, o, -, -, rfl⟩ :=
      exists_left_of_forall₂ first.flip z.first (List.mem_map_of_mem hz)
    exact ⟨_, List.mem_append_left _ hi, _, rfl⟩

end Placed

theorem placeCopies_placing {edge : EdgeCopies} (hc : s.current = some c)
    (hn : n ≤ s.vregs) (hfresh : ∀ o, Fresh n o → P o) (hedge : Writable P s edge.copies)
    (h : Runs (placeCopies edge) env s w s') :
    ∃ insts, Placed s' n edge.copies insts ∧
      Placing env P s s' (only edge.block insts) := by
  obtain ⟨mb, xs⟩ := edge
  unfold placeCopies at h
  split at h
  · obtain ⟨ys, t, hstage, hplace⟩ := runs_bind.mp h
    obtain ⟨zs, rfl, rfl, hnumbers, hstands, firsts, hfirsts, hfirst⟩ :=
      stageCopies_placing hc hn hfresh hstage
    have hwritable : Writable P t (zs.map Detour.second) := by
      intro y hy
      obtain ⟨z, hz, rfl⟩ := List.mem_map.mp hy
      exact (hedge z.copy (List.mem_map_of_mem hz)).later hfirst.follows
    obtain ⟨seconds, hseconds, hlast⟩ := insertCopies_placing hwritable hplace
    have hnodup : (zs.map Detour.register).Nodup := by
      refine List.Nodup.of_map (·.index.toNat) ?_
      rw [List.map_map]
      exact hnumbers ▸ List.nodup_range'
    refine ⟨firsts ++ seconds,
      .staged (fun z hz => ?_) hnodup (fun z hz => (hstands z hz).later hlast.follows)
      (hfirsts.later hlast.follows) hseconds, hfirst.trans_only hlast⟩
    have hmem : z.register.index.toNat ∈
        List.range' s.vregs (zs.map Detour.copy).length :=
      hnumbers ▸ List.mem_map_of_mem hz
    exact Nat.le_trans hn (List.mem_range'_1.mp hmem).1
  · next hfree =>
    obtain ⟨insts, hinsts, hplace⟩ := insertCopies_placing hedge h
    exact ⟨insts, .direct (Bool.not_eq_true _ ▸ hfree) hinsts, hplace⟩

theorem placeEdges_placing (hc : s.current = some c) (hn : n ≤ s.vregs)
    (hfresh : ∀ o, Fresh n o → P o) (hnodup : (edges.map EdgeCopies.block).Nodup)
    (hedges : AllWritable P s edges) (h : Runs (edges.forM placeCopies) env s w s') :
    ∃ copies, Placing env P s s' copies ∧
      ∀ mb, Placed s' n (copiesIn mb edges) (copies mb) := by
  induction edges generalizing s c with
  | nil =>
    obtain rfl := runs_forM_nil.mp h
    exact ⟨_, .refl s, fun _ => .nil s n⟩
  | cons e edges ih =>
    obtain ⟨t, he, hrest⟩ := runs_forM_cons.mp h
    obtain ⟨hhead, htail⟩ := List.forall_mem_cons.mp hedges
    obtain ⟨hnew, hnodup⟩ := List.nodup_cons.mp hnodup
    obtain ⟨insts, hinsts, hfirst⟩ := placeCopies_placing hc hn hfresh hhead he
    obtain ⟨d, hd, hle⟩ := hfirst.current hc
    obtain ⟨copies, hlast, hcopies⟩ :=
      ih hd (Nat.le_trans hn hle) hnodup (AllWritable.later htail hfirst.follows) hrest
    refine ⟨_, hfirst.trans hlast, fun mb => ?_⟩
    unfold only
    by_cases hmb : e.block = mb
    · subst hmb
      have hnone : copies e.block = [] := (hcopies e.block).eq_nil (copiesIn_eq_nil hnew)
      rw [if_pos rfl, hnone, List.append_nil, copiesIn, if_pos rfl]
      exact hinsts.later hlast.follows
    · rw [if_neg (Ne.symm hmb), List.nil_append, copiesIn, if_neg hmb]
      exact hcopies mb

/-! ## Collecting the copies -/

/-- The copy of one pair of a phi, by what blocks and values are bound to. -/
def Collects (env : Env) (s : State) (dst : OperandId) (x : ValueId × ValueId)
    (e : Entry) : Prop :=
  ∃ b, env.module.blockOf x.2 = .ok b ∧ s.blocks.find? b = some e.1 ∧ e.2.dst = dst ∧
    s.values.find? x.1 = some e.2.src

theorem Collects.later {x : ValueId × ValueId} {e : Entry} (h : Collects env s dst x e)
    (hf : Follows env s s') : Collects env s' dst x e := by
  obtain ⟨b, hb, hblock, hdst, hsrc⟩ := h
  exact ⟨b, hb, hf.blocks hblock, hdst, hf.values hsrc⟩

def CollectsPhi (env : Env) (s : State) (k : InstId) (entries : List Entry) : Prop :=
  ∃ i dst pairs, env.module.inst k = .ok i ∧ s.values.find? i.value = some dst ∧
    i.phiIncoming = .ok pairs ∧ List.Forall₂ (Collects env s dst) pairs entries

theorem CollectsPhi.later (h : CollectsPhi env s k entries) (hf : Follows env s s') :
    CollectsPhi env s' k entries := by
  obtain ⟨i, dst, pairs, hi, hdst, hpairs, hentries⟩ := h
  exact ⟨i, dst, pairs, hi, hf.values hdst, hpairs, hentries.imp fun _ _ he =>
    he.later hf⟩

/-- Collecting copies adds no block, unless one of them is the copy of a label. -/
def NewLabel (s s' : State) (entries : List Entry) : Prop :=
  SameBlocks s s' ∨ ∃ e ∈ entries, s'.Stands e.2.src fun o => ¬ NotLabel o

theorem NewLabel.trans {entries' : List Entry} (h : NewLabel s t entries)
    (hf : Follows env t s')
    (h' : NewLabel t s' entries') : NewLabel s s' (entries ++ entries') := by
  rcases h with hst | ⟨e, he, hlabel⟩
  · exact h'.imp hst.trans fun ⟨e, he, hlabel⟩ => ⟨e, List.mem_append_right _ he, hlabel⟩
  · exact .inr ⟨e, List.mem_append_left _ he, hlabel.later hf⟩

theorem collectPairs_entries {phi : ValueId} {pairs : List (ValueId × ValueId)}
    (h : Runs (pairs.foldlM (collectPair phi dst) edges) env s edges' s') :
    Path env s s' [] ∧ ∃ entries, edges' = addEntries edges entries ∧
      List.Forall₂ (Collects env s' dst) pairs entries ∧ NewLabel s s' entries := by
  induction pairs generalizing s edges with
  | nil =>
    obtain ⟨rfl, rfl⟩ := runs_foldlM_nil.mp h
    exact ⟨.refl s, [], rfl, .nil, .inl (.refl s)⟩
  | cons x pairs ih =>
    obtain ⟨mid, t, hx, hrest⟩ := runs_foldlM_cons.mp h
    simp only [collectPair, runs_bind, runs_predecessorBlock, runs_pure] at hx
    obtain ⟨mb, _, ⟨b, hb, hblock, rfl⟩, src, u, hresolve, rfl, rfl⟩ := hx
    obtain ⟨hpath, -, hsrc⟩ := resolve_path hresolve
    obtain ⟨hpath', entries, rfl, hentries, hlabels⟩ := ih hrest
    have hhead : Collects env u dst x (mb, ⟨dst, src⟩) :=
      ⟨b, hb, (Follows.of_path hpath).blocks hblock, rfl, hsrc⟩
    have hlabel : NewLabel s u [(mb, ⟨dst, src⟩)] :=
      (resolve_sameBlocks hresolve).imp id fun hlabel => ⟨_, List.mem_cons_self, hlabel⟩
    exact ⟨hpath.trans hpath', (mb, ⟨dst, src⟩) :: entries, rfl,
      .cons (hhead.later (.of_path hpath')) hentries,
      hlabel.trans (.of_path hpath') hlabels⟩

/-- The copies of waiting phis are collected phi by phi and pair by pair. -/
theorem collectPhis_entries {ks : List InstId}
    (h : Runs (ks.foldlM collectPhi edges) env s edges' s') :
    Path env s s' [] ∧
      ∃ groups : List (List Entry), edges' = addEntries edges groups.flatten ∧
      List.Forall₂ (CollectsPhi env s') ks groups ∧ NewLabel s s' groups.flatten := by
  induction ks generalizing s edges with
  | nil =>
    obtain ⟨rfl, rfl⟩ := runs_foldlM_nil.mp h
    exact ⟨.refl s, [], rfl, .nil, .inl (.refl s)⟩
  | cons k ks ih =>
    obtain ⟨mid, t, hk, hrest⟩ := runs_foldlM_cons.mp h
    simp only [collectPhi, runs_bind, runs_sourceModule, runs_check,
      runs_lookupValue] at hk
    obtain ⟨_, _, ⟨rfl, rfl⟩, i, _, ⟨hi, rfl⟩, r, _, ⟨hr, rfl⟩, hk⟩ := hk
    obtain ⟨hpath', groups, rfl, hgroups, hlabels⟩ := ih hrest
    cases r with
    | none => exact absurd (runs_check.mp hk).1 violate_ne_ok
    | some dst =>
      simp only [runs_bind, runs_check] at hk
      obtain ⟨pairs, _, ⟨hpairs, rfl⟩, hk⟩ := hk
      obtain ⟨hpath, entries, rfl, hentries, hlabel⟩ := collectPairs_entries hk
      have hhead : CollectsPhi env t k entries :=
        ⟨i, dst, pairs, hi, hpath.values hr, hpairs, hentries⟩
      refine ⟨hpath.trans hpath', entries :: groups, ?_,
        .cons (hhead.later (.of_path hpath')) hgroups,
        hlabel.trans (.of_path hpath') hlabels⟩
      rw [List.flatten_cons, addEntries, addEntries, addEntries, List.foldl_append]

/-- A phi with a register that may be written. -/
def PhiWritable (env : Env) (P : Operand → Prop) (s : State) (k : InstId) : Prop :=
  ∃ i dst, env.module.inst k = .ok i ∧ s.values.find? i.value = some dst ∧ s.Stands dst P

theorem PhiWritable.later (h : PhiWritable env P s k) (hf : Follows env s s') :
    PhiWritable env P s' k := by
  obtain ⟨i, dst, hi, hv, hdst⟩ := h
  exact ⟨i, dst, hi, hf.values hv, hdst.later hf⟩

/-- The copies of a phi write its register. -/
theorem CollectsPhi.writable (h : CollectsPhi env s k entries)
    (hk : PhiWritable env P s k) :
    ∀ e ∈ entries, s.Stands e.2.dst P := by
  obtain ⟨i, dst, pairs, hi, hv, -, hentries⟩ := h
  obtain ⟨j, dst', hj, hv', hdst⟩ := hk
  cases hi.symm.trans hj
  cases hv.symm.trans hv'
  intro e he
  obtain ⟨x, -, b, -, -, rfl, -⟩ := exists_left_of_forall₂ hentries e he
  exact hdst

theorem allWritable_addEntries (hedges : AllWritable P s edges)
    (h : ∀ e ∈ entries, s.Stands e.2.dst P) :
    AllWritable P s (addEntries edges entries) := by
  induction entries generalizing edges with
  | nil => exact hedges
  | cons e entries ih =>
    obtain ⟨he, hrest⟩ := List.forall_mem_cons.mp h
    have hadd : ∀ x ∈ addCopy e.1 e.2 edges, True ∧ Writable P s x.copies :=
      forall_addCopy (P := fun _ => True) (fun x hx => ⟨trivial, hedges x hx⟩) trivial he
    exact ih (fun x hx => (hadd x hx).2) hrest

/--
The copies of a function: those of its phis, in the blocks of their predecessors. They
write the registers of the phis, and fresh ones.
-/
theorem resolvePendingPhis_placing (hc : s.current = some c)
    (hfresh : ∀ o, Fresh s.vregs o → P o)
    (hphis : ∀ k ∈ s.pendingPhis, PhiWritable env P s k)
    (h : Runs resolvePendingPhis env s w s') :
    ∃ copies, Placing env P { s with pendingPhis := [] } s' copies ∧
      ∃ groups : List (List Entry),
      List.Forall₂ (CollectsPhi env s') s.pendingPhis groups ∧
        ∀ mb, Placed s' s.vregs ((groups.flatten.filter (·.1 = mb)).map Prod.snd)
        (copies mb) := by
  simp only [resolvePendingPhis, runs_bind, runs_get, runs_modify] at h
  obtain ⟨_, _, ⟨rfl, rfl⟩, _, _, rfl, edges, t, hcollect, hplace⟩ := h
  have hc' : ({ s with pendingPhis := [] } : State).current = some c := hc
  obtain ⟨hpath, groups, rfl, hgroups, hlabels⟩ := collectPhis_entries hcollect
  obtain ⟨d, hd, -⟩ := hpath.grown hc'
  have hwritable : ∀ e ∈ groups.flatten, t.Stands e.2.dst P := by
    intro e he
    obtain ⟨entries, hentries, he⟩ := List.mem_flatten.mp he
    obtain ⟨k, hk, hcollects⟩ := exists_left_of_forall₂ hgroups entries hentries
    obtain ⟨i, dst, hi, hv, hdst⟩ := hphis k hk
    have hk' : PhiWritable env P { s with pendingPhis := [] } k :=
      ⟨i, dst, hi, hv, hdst.of_current rfl⟩
    exact hcollects.writable (hk'.later (.of_path hpath)) e he
  have hnodup : ((addEntries [] groups.flatten).map EdgeCopies.block).Nodup :=
    nodup_addEntries (by simp)
  obtain ⟨copies, hlast, hcopies⟩ := placeEdges_placing hd hpath.vregs_le hfresh hnodup
    (allWritable_addEntries (fun e he => absurd he List.not_mem_nil) hwritable) hplace
  simp only [copiesIn_addEntries] at hcopies
  have hfirst : s'.Small → SameBlocks { s with pendingPhis := [] } t := by
    intro hsmall
    rcases hlabels with hblocks | ⟨e, he, hlabel⟩
    · exact hblocks
    · -- The copy of a label would have been refused.
      have hmem : e.2 ∈ (groups.flatten.filter (·.1 = e.1)).map Prod.snd :=
        List.mem_map_of_mem (List.mem_filter.mpr ⟨he, by simp⟩)
      obtain ⟨i, hi, dst, hoperands⟩ := (hcopies e.1).source hmem
      obtain ⟨o, ho, hlabel⟩ := hlabel.later hlast.follows hsmall
      obtain ⟨o', ho', hsource⟩ := (hlast.copies e.1 i hi).source hoperands
      cases ho.unique ho'
      exact absurd hsource hlabel
  refine ⟨copies, ⟨(Follows.of_path hpath).trans hlast.follows,
    fun mb => ?_, hlast.copies,
    fun hsmall => (hfirst hsmall).trans (hlast.blocks hsmall)⟩, groups,
    hgroups.imp fun _ _ hk => hk.later hlast.follows, hcopies⟩
  rw [hlast.insts, instsOf_of_path hc' hpath]

end InstSelect.Lowering
