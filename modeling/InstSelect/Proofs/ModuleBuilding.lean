import Mathlib.Data.List.Forall2
import Mathlib.Data.List.Nodup
import InstSelect.Proofs.LinkedModules

/-!
# Source modules under construction

Source modules are built by operations on five arenas whose nodes refer to each other,
directly or through a cursor. `Step` says once what a successful operation does to the
module: it adds a value, mostly with the node behind it, or sets the alignment of a
global, or extends a phi; a step of the last kind carries what it adds. All but the
operands of phis and the lists of blocks and instructions stays as it was created, so the
links between nodes hold after every sequence of operations, and a phi has exactly the
pairs that it was given, in order.
-/

namespace InstSelect.IR

open Lowering (bind_eq_ok pure_eq_ok yields exists_of_yields)

/-! ## Operations -/

/-- A module under construction, and where instructions are appended. -/
structure Draft where
  module : Module
  cursor : Cursor

/--
The operations that change a draft, with their arguments. Integer, floating-point, null,
zero, undefined and aggregate constants are all `constant`; look-ups leave the draft as it
is.
-/
inductive Edit
  | declareFunction (name : String) (sig : FnSig)
  | defineFunction (name : String) (sig : FnSig)
  | addGlobal (name : String) (ty : Ty) (initializer : Option ValueId)
  | setGlobalAlignment (global : GlobalId) (alignment : UInt32)
  | appendBlock (func : FuncId) (name : Option String)
  | appendInst (block : BlockId) (opcode : Opcode) (operands : List ValueId) (ty : Ty)
  | addPhiIncoming (phi value : ValueId) (pred : BlockId)
  | constant (ty : Ty) (c : Constant)
  | constBool (value : Bool)
  | constBytes (data : List UInt8)
  /-- A new cursor, which is at no block yet. -/
  | detach
  | position (block : BlockId)
  | binary (opcode : Opcode) (lhs rhs : ValueId)
  | cmp (predicate : Predicate) (lhs rhs : ValueId)
  | alloca (ty : Ty)
  | allocaArray (ty : Ty) (count : ValueId)
  | load (ty : Ty) (ptr : ValueId)
  | store (value ptr : ValueId)
  | gep (ty : Ty) (base : ValueId) (indices : List ValueId)
  | phi (ty : Ty) (incoming : List (ValueId × BlockId))
  | call (callee : ValueId) (args : List ValueId)
  | cast (opcode : Opcode) (value : ValueId) (ty : Ty)
  | br (target : BlockId)
  | condBr (condition : ValueId) (ifTrue ifFalse : BlockId)
  | ret (value : Option ValueId)

/-- The draft with the module that an operation left. -/
def Draft.after {α : Type} (d : Draft) (result : Except Failure (α × Module)) :
    Except Failure Draft := do
  let (_, m) ← result
  pure { d with module := m }

/-- The draft that an operation leaves. -/
def Edit.apply (d : Draft) : Edit → Except Failure Draft
  | declareFunction name sig => d.after (.ok (d.module.declareFunction name sig))
  | defineFunction name sig => d.after (.ok (d.module.defineFunction name sig))
  | addGlobal name ty initializer =>
    d.after (.ok (d.module.addGlobal name ty initializer))
  | setGlobalAlignment global alignment => do
    pure { d with module := ← d.module.setGlobalAlignment global alignment }
  | appendBlock func name => d.after (d.module.appendBlock func name)
  | appendInst block opcode operands ty =>
    d.after (d.module.appendInst block opcode operands ty)
  | addPhiIncoming target value pred => do
    pure { d with module := ← d.module.addPhiIncoming target value pred }
  | constant ty c => d.after (.ok (d.module.constant ty c))
  | constBool value => d.after (.ok (d.module.constBool value))
  | constBytes data => d.after (.ok (d.module.constBytes data))
  | detach => .ok { d with cursor := none }
  | position block => .ok { d with cursor := some block }
  | binary opcode lhs rhs => d.after (d.cursor.binary d.module opcode lhs rhs)
  | cmp predicate lhs rhs => d.after (d.cursor.cmp d.module predicate lhs rhs)
  | alloca ty => d.after (d.cursor.alloca d.module ty)
  | allocaArray ty count => d.after (d.cursor.allocaArray d.module ty count)
  | load ty ptr => d.after (d.cursor.load d.module ty ptr)
  | store value ptr => d.after (d.cursor.store d.module value ptr)
  | gep ty base indices => d.after (d.cursor.gep d.module ty base indices)
  | phi ty incoming => d.after (d.cursor.phi d.module ty incoming)
  | call callee args => d.after (d.cursor.call d.module callee args)
  | cast opcode value ty => d.after (d.cursor.cast d.module opcode value ty)
  | br target => d.after (d.cursor.br d.module target)
  | condBr condition ifTrue ifFalse =>
    d.after (d.cursor.condBr d.module condition ifTrue ifFalse)
  | ret value => d.after (d.cursor.ret d.module value)

/-- The draft that a sequence of operations leaves, if all of them succeed. -/
def Draft.perform (d : Draft) (edits : List Edit) : Except Failure Draft :=
  edits.foldlM Edit.apply d

/-- A pair that is added to a phi. -/
structure Incoming where
  phi : ValueId
  value : ValueId
  pred : BlockId

/-- The pair that is added to the phi `v`, if it is the one that is extended. -/
def Incoming.pairFor (v : ValueId) (x : Incoming) : Option (ValueId × BlockId) :=
  if x.phi = v then some (x.value, x.pred) else none

/-- What an operation adds to a phi, if it is the one that does. -/
def Edit.extension : Edit → Option Incoming
  | addPhiIncoming target value pred => some ⟨target, value, pred⟩
  | _ => none

/-- The pairs that operations add to the phi `v`. -/
def additions (v : ValueId) (edits : List Edit) : List (ValueId × BlockId) :=
  edits.filterMap fun edit => edit.extension.bind (Incoming.pairFor v)

/-! ## What one operation can do -/

/-- What a successful operation does to a module, and what it adds to a phi. -/
inductive Step (m : Module) : Option Incoming → Module → Prop
  | stay : Step m none m
  | constant (ty : Ty) (c : Constant) : Step m none (m.constant ty c).2
  | addFunction (name : String) (sig : FnSig) (isExternal : Bool) :
      Step m none (m.addFunction name sig isExternal).2
  | addGlobal (name : String) (ty : Ty) (initializer : Option ValueId) :
      Step m none (m.addGlobal name ty initializer).2
  | setGlobalAlignment {m' : Module} {g : GlobalId} {alignment : UInt32}
      (run : m.setGlobalAlignment g alignment = .ok m') : Step m none m'
  | appendBlock {m' : Module} {func : FuncId} {name : Option String} {id : BlockId}
      (run : m.appendBlock func name = .ok (id, m')) : Step m none m'
  | appendInst {m' : Module} {block : BlockId} {opcode : Opcode} {operands : List ValueId}
      {ty : Ty} {v : ValueId}
      (run : m.appendInst block opcode operands ty = .ok (v, m')) :
      Step m none m'
  | addPhiIncoming {m' : Module} {phi value : ValueId} {pred : BlockId}
      (run : m.addPhiIncoming phi value pred = .ok m') :
      Step m (some ⟨phi, value, pred⟩) m'

variable {m m' : Module} {d d' : Draft} {ty : Ty} {v : ValueId}
  {label : Option Incoming} {given : List (ValueId × BlockId)} {edits : List Edit}
  {c : Cursor} {operands : List ValueId} {edit : Edit}

theorem Draft.after_eq_ok {α : Type} {result : Except Failure (α × Module)}
    (h : d.after result = .ok d') :
    ∃ a, result = .ok (a, d'.module) := by
  obtain ⟨⟨a, m⟩, hresult, hpure⟩ := bind_eq_ok.mp h
  cases hpure
  exact ⟨a, hresult⟩

/-- At a cursor instructions are appended to its block. -/
theorem Step.of_push {opcode : Opcode} (h : c.push m opcode operands ty = .ok (v, m')) :
    Step m none m' := by
  cases c with
  | none => cases h
  | some block => exact .appendInst h

/-- Every operation that succeeds is one of the steps. -/
theorem Edit.step (h : edit.apply d = .ok d') :
    Step d.module edit.extension d'.module := by
  cases edit with
  | declareFunction name sig =>
    cases h
    exact .addFunction name sig true
  | defineFunction name sig =>
    cases h
    exact .addFunction name sig false
  | addGlobal name ty initializer =>
    cases h
    exact .addGlobal name ty initializer
  | constant | constBool | constBytes =>
    cases h
    exact .constant _ _
  | detach | position =>
    cases h
    exact .stay
  | setGlobalAlignment global alignment =>
    obtain ⟨m', hrun, hpure⟩ := bind_eq_ok.mp h
    cases hpure
    exact .setGlobalAlignment hrun
  | addPhiIncoming phi value pred =>
    obtain ⟨m', hrun, hpure⟩ := bind_eq_ok.mp h
    cases hpure
    exact .addPhiIncoming hrun
  | appendBlock func name =>
    obtain ⟨id, hrun⟩ := Draft.after_eq_ok h
    exact .appendBlock hrun
  | appendInst block opcode operands ty =>
    obtain ⟨v, hrun⟩ := Draft.after_eq_ok h
    exact .appendInst hrun
  | cmp | alloca | allocaArray | load | store | gep | cast | ret =>
    obtain ⟨v, hpush⟩ := Draft.after_eq_ok h
    exact .of_push hpush
  | binary | phi | br =>
    obtain ⟨v, hrun⟩ := Draft.after_eq_ok h
    obtain ⟨_, -, hpush⟩ := bind_eq_ok.mp hrun
    exact .of_push hpush
  | condBr condition ifTrue ifFalse =>
    obtain ⟨v, hrun⟩ := Draft.after_eq_ok h
    obtain ⟨_, -, hrun⟩ := bind_eq_ok.mp hrun
    obtain ⟨_, -, hpush⟩ := bind_eq_ok.mp hrun
    exact .of_push hpush
  | call callee args =>
    obtain ⟨v, hrun⟩ := Draft.after_eq_ok h
    obtain ⟨ty, -, hrun⟩ := bind_eq_ok.mp hrun
    split at hrun
    · exact .of_push hrun
    · cases hrun

theorem Step.built (h : Step m label m') (hm : Built m) : Built m' := by
  cases h with
  | stay => exact hm
  | constant ty c => exact hm.constant ty c
  | addFunction name sig isExternal => exact hm.addFunction name sig isExternal
  | addGlobal name ty initializer => exact hm.addGlobal name ty initializer
  | setGlobalAlignment run => exact hm.setGlobalAlignment run
  | appendBlock run => exact hm.appendBlock run
  | appendInst run => exact hm.appendInst run
  | addPhiIncoming run => exact hm.addPhiIncoming run

theorem Step.extends (h : Step m label m') : m.Extends m' := by
  cases h with
  | stay => exact .refl m
  | constant ty c => exact m.extends_constant ty c
  | addFunction name sig isExternal => exact m.extends_addFunction name sig isExternal
  | addGlobal name ty initializer => exact m.extends_addGlobal name ty initializer
  | setGlobalAlignment run => exact Module.extends_setGlobalAlignment run
  | appendBlock run => exact Module.extends_appendBlock run
  | appendInst run => exact Module.extends_appendInst run
  | addPhiIncoming run => exact Module.extends_addPhiIncoming run

/-- Without an extension of a phi instructions stay as they are. -/
theorem Step.insts (h : Step m none m') {k : Nat} {i : Inst} (hi : m.insts[k]? = some i) :
    m'.insts[k]? = some i := by
  cases h with
  | stay | constant | addGlobal => exact hi
  | addFunction name sig isExternal =>
    simpa only [Module.addFunction, Module.pushValue, Module.pushParams_eq] using hi
  | setGlobalAlignment run =>
    obtain ⟨_, -, hpure⟩ := bind_eq_ok.mp run
    cases hpure
    exact hi
  | appendBlock run =>
    obtain ⟨_, -, run⟩ := bind_eq_ok.mp run
    obtain ⟨_, -, hpure⟩ := bind_eq_ok.mp run
    cases hpure
    exact hi
  | appendInst run =>
    obtain ⟨_, -, hpure⟩ := bind_eq_ok.mp run
    cases hpure
    exact Module.Extends.getElem?_push hi

/-! ## Links -/

namespace Module

/-- Every parameter of a function has a value, which knows the function and the place. -/
def HasParams (m : Module) : Prop :=
  ∀ (k : Nat) (f : Function), m.functions[k]? = some f →
    ∀ (j : Nat) (ty : Ty), f.sig.params[j]? = some ty →
      ∃ v, f.params[j]? = some v ∧
      m.values[v.index.toNat]? = some ⟨ty, .argument ⟨.ofNat k⟩ (.ofNat j)⟩

/-- The nodes of a module refer to each other by ids, and each node has its one place. -/
structure Consistent (m : Module) : Prop where
  functions : ∀ (id : FuncId) (f : Function), m.function id = .ok f →
    m.value f.value = .ok ⟨.ptr (.ofSig f.sig), .function id⟩ ∧
    f.params.length = f.sig.params.length ∧
    (∀ (j : Nat) (ty : Ty), f.sig.params[j]? = some ty →
      ∃ v, m.arg id j = .ok v ∧ m.value v = .ok ⟨ty, .argument id (.ofNat j)⟩) ∧
    (f.isExternal = true → f.blocks = [])
  blocks : ∀ (id : BlockId) (b : Block), m.block id = .ok b →
    m.value b.value = .ok ⟨.void, .block id⟩ ∧
    (∃ f, m.function b.func = .ok f ∧ f.blocks.count id = 1) ∧
    ∀ (g : FuncId) (f : Function), m.function g = .ok f → g ≠ b.func → id ∉ f.blocks
  insts : ∀ (id : InstId) (i : Inst), m.inst id = .ok i →
    m.value i.value = .ok ⟨i.ty, .instruction id⟩ ∧
    (∃ b, m.block i.block = .ok b ∧ b.insts.count id = 1) ∧
    ∀ (c : BlockId) (b : Block), m.block c = .ok b → c ≠ i.block → id ∉ b.insts
  globals : ∀ (id : GlobalId) (g : Global), m.global id = .ok g →
    m.value g.value = .ok ⟨.ptr g.ty, .global id⟩
  /-- Ids reach every node. -/
  size : m.values.size ≤ 2 ^ 32 ∧ m.insts.size ≤ 2 ^ 32 ∧ m.blocks.size ≤ 2 ^ 32 ∧
    m.functions.size ≤ 2 ^ 32 ∧ m.globals.size ≤ 2 ^ 32

theorem Extends.trans {m1 m2 m3 : Module} (h : Extends m1 m2) (h' : Extends m2 m3) :
    Extends m1 m3 where
  values k v hv := h'.values k v (h.values k v hv)
  insts k i hi := by
    obtain ⟨i2, hi2, hvalue, hty, hblock⟩ := h.insts k i hi
    obtain ⟨i3, hi3, hvalue', hty', hblock'⟩ := h'.insts k i2 hi2
    exact ⟨i3, hi3, hvalue'.trans hvalue, hty'.trans hty, hblock'.trans hblock⟩
  blocks k b hb := by
    obtain ⟨b2, hb2, hvalue, hfunc, hsub⟩ := h.blocks k b hb
    obtain ⟨b3, hb3, hvalue', hfunc', hsub'⟩ := h'.blocks k b2 hb2
    exact ⟨b3, hb3, hvalue'.trans hvalue, hfunc'.trans hfunc,
      List.Subset.trans hsub hsub'⟩
  functions k f hf := by
    obtain ⟨f2, hf2, hvalue, hsig, hparams, hext, hsub⟩ := h.functions k f hf
    obtain ⟨f3, hf3, hvalue', hsig', hparams', hext', hsub'⟩ := h'.functions k f2 hf2
    exact ⟨f3, hf3, hvalue'.trans hvalue, hsig'.trans hsig, hparams'.trans hparams,
      hext'.trans hext, List.Subset.trans hsub hsub'⟩
  globals k g hg := by
    obtain ⟨g2, hg2, hvalue, hty⟩ := h.globals k g hg
    obtain ⟨g3, hg3, hvalue', hty'⟩ := h'.globals k g2 hg2
    exact ⟨g3, hg3, hvalue'.trans hvalue, hty'.trans hty⟩

/--
Parameters keep their values in every extension, and the functions that are new are to be
shown.
-/
theorem HasParams.extend (h : m.HasParams) (he : Extends m m')
    (hnew : ∀ (k : Nat) (f : Function), m'.functions[k]? = some f → m.functions.size ≤ k →
      ∀ (j : Nat) (ty : Ty), f.sig.params[j]? = some ty →
        ∃ v, f.params[j]? = some v ∧
          m'.values[v.index.toNat]? = some ⟨ty, .argument ⟨.ofNat k⟩ (.ofNat j)⟩) :
    m'.HasParams := by
  intro k f' hf' j ty hty
  rcases Nat.lt_or_ge k m.functions.size with hk | hk
  · obtain ⟨f, hf, -, hsig, hparams, -⟩ := he.functions k _ (Array.getElem?_eq_getElem hk)
    cases hf.symm.trans hf'
    rw [hsig] at hty
    obtain ⟨v, hv, hvalue⟩ := h k _ (Array.getElem?_eq_getElem hk) j ty hty
    exact ⟨v, by rw [hparams, hv], he.values _ _ hvalue⟩
  · exact hnew k f' hf' hk j ty hty

/-- No function is new if there are as many as before. -/
theorem HasParams.extend_of_size_eq (h : m.HasParams) (he : Extends m m')
    (hsize : m'.functions.size = m.functions.size) : m'.HasParams := by
  refine h.extend he fun k f hf hk => ?_
  have hlt := (Array.getElem?_eq_some_iff.mp hf).1
  omega

theorem HasParams.addFunction (h : m.HasParams) (name : String) (sig : FnSig)
    (isExternal : Bool)
    (hsmall : (m.addFunction name sig isExternal).2.values.size ≤ 2 ^ 32) :
    (m.addFunction name sig isExternal).2.HasParams := by
  refine h.extend (m.extends_addFunction name sig isExternal) fun k f hf hk j ty hty => ?_
  simp only [Module.addFunction, pushValue, pushParams_eq, Array.size_append,
    Array.size_push, size_paramValues] at hf hsmall ⊢
  rcases of_getElem?_push hf with hold | ⟨rfl, rfl⟩
  · exact absurd (Array.getElem?_eq_some_iff.mp hold).1 (Nat.not_lt.mpr hk)
  have hj : j < sig.params.length := (List.getElem?_eq_some_iff.mp hty).1
  have hvalue := toNat_ofNat_of_lt (k := m.values.size + 1 + j) (by omega) hsmall
  refine ⟨⟨.ofNat (m.values.size + 1 + j)⟩, ?_, ?_⟩
  · simp [hj]
  · show (_ ++ _)[(UInt32.ofNat (m.values.size + 1 + j)).toNat]? = _
    rw [hvalue, Array.getElem?_append_right (by simp), Array.size_push,
      Nat.add_sub_cancel_left,
      List.getElem?_toArray, paramValues, List.getElem?_map, List.getElem?_zipIdx, hty]
    simp

/-- The links of a module, by ids. -/
theorem Linked.consistent (h : m.Linked) (hparams : m.HasParams)
    (hsmall : m.values.size ≤ 2 ^ 32) :
    m.Consistent where
  functions id f hf := by
    rw [function_eq_ok] at hf
    have hlink := h.functions _ f hf
    refine ⟨?_, hlink.params, fun j ty hty => ?_, fun hext => ?_⟩
    · simpa [value_eq_ok] using hlink.value
    · obtain ⟨v, hv, hvalue⟩ := hparams _ f hf j ty hty
      refine ⟨v, bind_eq_ok.mpr ⟨f, function_eq_ok.mpr hf, by rw [hv]; rfl⟩, ?_⟩
      simpa [value_eq_ok] using hvalue
    · -- A block of the function would say that the function has a body.
      refine List.eq_nil_iff_forall_not_mem.mpr fun b hb => ?_
      obtain ⟨d, hd, hfunc⟩ := hlink.blocks b hb
      obtain ⟨f', hf', -, hext'⟩ := (h.blocks _ d hd).func
      rw [hfunc, UInt32.ofNat_toNat, hf] at hf'
      cases hf'
      rw [hext] at hext'
      cases hext'
  blocks id b hb := by
    rw [block_eq_ok] at hb
    have hlink := h.blocks _ b hb
    obtain ⟨f, hf, hmem, -⟩ := hlink.func
    rw [UInt32.ofNat_toNat] at hmem
    refine ⟨by simpa [value_eq_ok] using hlink.value, ⟨f, function_eq_ok.mpr hf, ?_⟩, ?_⟩
    · exact List.count_eq_one_of_mem (h.functions _ f hf).nodup hmem
    · intro g f' hf' hne hmem'
      obtain ⟨b', hb', hfunc⟩ := (h.functions _ f' (function_eq_ok.mp hf')).blocks _ hmem'
      cases hb.symm.trans hb'
      rw [UInt32.ofNat_toNat] at hfunc
      exact hne hfunc.symm
  insts id i hi := by
    rw [inst_eq_ok] at hi
    have hlink := h.insts _ i hi
    obtain ⟨b, hb, hmem⟩ := hlink.block
    rw [UInt32.ofNat_toNat] at hmem
    refine ⟨by simpa [value_eq_ok] using hlink.value, ⟨b, block_eq_ok.mpr hb, ?_⟩, ?_⟩
    · exact List.count_eq_one_of_mem (h.blocks _ b hb).nodup hmem
    · intro c b' hb' hne hmem'
      obtain ⟨i', hi', hblock⟩ := (h.blocks _ b' (block_eq_ok.mp hb')).insts _ hmem'
      cases hi.symm.trans hi'
      rw [UInt32.ofNat_toNat] at hblock
      exact hne hblock.symm
  globals id g hg := by
    simpa [value_eq_ok] using h.globals _ g (global_eq_ok.mp hg)
  size := by
    have hsize := h.size
    omega

/-- Two values for one instruction are one value. -/
theorem Linked.value_unique (h : m.Linked) {w : ValueId} {ty' : Ty} {id : InstId}
    (hv : m.values[v.index.toNat]? = some ⟨ty, .instruction id⟩)
    (hw : m.values[w.index.toNat]? = some ⟨ty', .instruction id⟩) : v = w := by
  obtain ⟨i, hi, hiv, -⟩ := h.values _ _ hv
  obtain ⟨i', hi', hiw, -⟩ := h.values _ _ hw
  cases hi.symm.trans hi'
  rw [UInt32.ofNat_toNat] at hiv hiw
  exact hiv.symm.trans hiw

end Module

theorem Built.hasParams (h : Built m) (hsmall : m.values.size ≤ 2 ^ 32) :
    m.HasParams := by
  induction h with
  | empty name =>
    intro k f hf
    simp [Module.empty] at hf
  | @constant m _ ty c ih =>
    have he := m.extends_constant ty c
    exact (ih (he.size_le.trans hsmall)).extend_of_size_eq he rfl
  | @addFunction m _ name sig isExternal ih =>
    have he := m.extends_addFunction name sig isExternal
    exact (ih (he.size_le.trans hsmall)).addFunction name sig isExternal hsmall
  | @addGlobal m _ name ty initializer ih =>
    have he := m.extends_addGlobal name ty initializer
    exact (ih (he.size_le.trans hsmall)).extend_of_size_eq he rfl
  | setGlobalAlignment _ run ih =>
    have he := Module.extends_setGlobalAlignment run
    refine (ih (he.size_le.trans hsmall)).extend_of_size_eq he ?_
    obtain ⟨_, -, hpure⟩ := bind_eq_ok.mp run
    cases hpure
    rfl
  | appendBlock _ run ih =>
    have he := Module.extends_appendBlock run
    refine (ih (he.size_le.trans hsmall)).extend_of_size_eq he ?_
    obtain ⟨_, -, run⟩ := bind_eq_ok.mp run
    obtain ⟨_, -, hpure⟩ := bind_eq_ok.mp run
    cases hpure
    exact Array.size_setIfInBounds
  | appendInst _ run ih =>
    have he := Module.extends_appendInst run
    refine (ih (he.size_le.trans hsmall)).extend_of_size_eq he ?_
    obtain ⟨_, -, hpure⟩ := bind_eq_ok.mp run
    cases hpure
    rfl
  | addPhiIncoming _ run ih =>
    have he := Module.extends_addPhiIncoming run
    obtain ⟨_, _, _, _, -, -, -, -, rfl⟩ := Module.addPhiIncoming_eq_ok run
    exact (ih (he.size_le.trans hsmall)).extend_of_size_eq he rfl

/-! ## Phis -/

/-- Pairs of a value and a block, and the same pairs with the value of the block. -/
def Module.Pairs (m : Module) : List (ValueId × BlockId) → List (ValueId × ValueId) →
    Prop :=
  List.Forall₂ fun given pair => pair.1 = given.1 ∧ m.blockValue given.2 = .ok pair.2

/-- The phi `v` has just the given pairs, in order. -/
def Module.HasIncoming (m : Module) (v : ValueId) (ty : Ty)
    (given : List (ValueId × BlockId)) : Prop :=
  ∃ id i pairs, m.value v = .ok ⟨ty, .instruction id⟩ ∧ m.inst id = .ok i ∧
    i.phiIncoming = .ok pairs ∧ m.Pairs given pairs

/-- Pairs as operands: values interleaved with the references to their blocks. -/
def interleave (pairs : List (ValueId × ValueId)) : List ValueId :=
  pairs.flatMap fun pair => [pair.1, pair.2]

theorem pairs?_interleave (pairs : List (ValueId × ValueId)) :
    pairs? (interleave pairs) = some pairs := by
  induction pairs with
  | nil => rfl
  | cons pair rest ih =>
    show (pairs? (interleave rest)).map (pair :: ·) = _
    rw [ih, Option.map_some]

/-- Behind the phi `v` stands an instruction with the given pairs as operands. -/
def Module.PhiAt (m : Module) (v : ValueId) (ty : Ty) (given : List (ValueId × BlockId)) :
    Prop :=
  ∃ id i pairs, m.values[v.index.toNat]? = some ⟨ty, .instruction id⟩ ∧
    m.insts[id.index.toNat]? = some i ∧ i.opcode = .phi ∧ i.operands = interleave pairs ∧
    m.Pairs given pairs

theorem Module.PhiAt.hasIncoming (h : m.PhiAt v ty given) : m.HasIncoming v ty given := by
  obtain ⟨id, i, pairs, hv, hi, hop, hoperands, hpairs⟩ := h
  refine ⟨id, i, pairs, Module.value_eq_ok.mpr hv, Module.inst_eq_ok.mpr hi, ?_, hpairs⟩
  rw [Inst.phiIncoming, hop, hoperands, pairs?_interleave]

theorem Module.blockValue_eq_ok {id : BlockId} :
    m.blockValue id = .ok v ↔ ∃ b, m.blocks[id.index.toNat]? = some b ∧ b.value = v := by
  simp only [Module.blockValue, bind_eq_ok, Module.block_eq_ok, pure_eq_ok]

/-- The value of a block stays. -/
theorem Module.Extends.pairs (he : m.Extends m') {pairs : List (ValueId × ValueId)}
    (h : m.Pairs given pairs) :
    m'.Pairs given pairs := by
  refine List.Forall₂.imp (fun given pair ⟨hvalue, hblock⟩ => ⟨hvalue, ?_⟩) h
  obtain ⟨b, hb, hbv⟩ := Module.blockValue_eq_ok.mp hblock
  obtain ⟨b', hb', hbv', -⟩ := he.blocks _ b hb
  exact Module.blockValue_eq_ok.mpr ⟨b', hb', hbv'.trans hbv⟩

theorem Cursor.phiOperands_eq_ok (h : Cursor.phiOperands m given = .ok operands) :
    ∃ pairs, operands = interleave pairs ∧ m.Pairs given pairs := by
  induction given generalizing operands with
  | nil =>
    cases h
    exact ⟨[], rfl, .nil⟩
  | cons pair rest ih =>
    obtain ⟨pred, hpred, h⟩ := bind_eq_ok.mp h
    obtain ⟨others, hothers, hpure⟩ := bind_eq_ok.mp h
    cases hpure
    obtain ⟨pairs, rfl, hpairs⟩ := ih hothers
    exact ⟨(pair.1, pred) :: pairs, rfl, .cons ⟨rfl, hpred⟩ hpairs⟩

/-- A new phi has the pairs that it was created with. -/
theorem Cursor.phiAt_of_phi (h : c.phi m ty given = .ok (v, m')) (hm : m.Linked)
    (hsmall : m'.values.size ≤ 2 ^ 32) : m'.PhiAt v ty given := by
  obtain ⟨operands, hoperands, hpush⟩ := bind_eq_ok.mp h
  obtain ⟨pairs, rfl, hpairs⟩ := Cursor.phiOperands_eq_ok hoperands
  have he := (Step.of_push hpush).extends
  cases c with
  | none => cases hpush
  | some block =>
    obtain ⟨b, -, hpure⟩ := bind_eq_ok.mp hpush
    cases hpure
    have hsize := hm.size
    simp only [Array.size_push] at hsmall
    exact ⟨_, _, pairs, Module.getElem?_push_ofNat (Nat.lt_succ_self _) hsmall,
      Module.getElem?_push_ofNat (Nat.lt_succ_of_le hsize.1) hsmall, rfl, rfl,
      he.pairs hpairs⟩

/--
A step leaves the pairs of a phi, or adds one pair at the end if it extends just this phi.
-/
theorem Step.phi (h : Step m label m') (hm : m.Linked) (hphi : m.PhiAt v ty given) :
    m'.PhiAt v ty (given ++ (label.bind (Incoming.pairFor v)).toList) := by
  obtain ⟨id, i, pairs, hv, hi, hop, hoperands, hpairs⟩ := hphi
  have he := h.extends
  cases label with
  | none =>
    rw [Option.bind_none, Option.toList_none, List.append_nil]
    exact ⟨id, i, pairs, he.values _ _ hv, h.insts hi, hop, hoperands, he.pairs hpairs⟩
  | some x =>
    cases h with
    | @addPhiIncoming _ w value pred run =>
      obtain ⟨ty', id', i', b, hw, hi', -, hb, rfl⟩ := Module.addPhiIncoming_eq_ok run
      by_cases hid : id' = id
      · subst hid
        cases hi.symm.trans hi'
        have hwv := hm.value_unique hw hv
        refine ⟨id', _, pairs ++ [(value, b.value)], hv,
          Array.getElem?_setIfInBounds_self_of_lt (Array.getElem?_eq_some_iff.mp hi).1,
          hop, ?_, ?_⟩
        · simp [hoperands, interleave]
        · simp only [Option.bind_some, Incoming.pairFor, if_pos hwv, Option.toList_some]
          refine List.rel_append (he.pairs hpairs) (.cons ⟨rfl, ?_⟩ .nil)
          exact Module.blockValue_eq_ok.mpr ⟨b, hb, rfl⟩
      · -- Another value is extended, as this one stands for another instruction.
        have hne : w ≠ v := by
          rintro rfl
          cases hv.symm.trans hw
          exact hid rfl
        have hindex : id'.index.toNat ≠ id.index.toNat := fun heq =>
          hid (congrArg InstId.mk (UInt32.toNat_inj.mp heq))
        simp only [Option.bind_some, Incoming.pairFor, if_neg hne, Option.toList_none,
          List.append_nil]
        exact ⟨id, i, pairs, hv, (Array.getElem?_setIfInBounds_ne hindex).trans hi, hop,
          hoperands, he.pairs hpairs⟩

/-! ## Sequences of operations -/

theorem Draft.perform_cons {rest : List Edit} :
    d.perform (edit :: rest) = .ok d' ↔
      ∃ next, edit.apply d = .ok next ∧ next.perform rest = .ok d' := by
  rw [Draft.perform, List.foldlM_cons, bind_eq_ok]
  rfl

theorem Draft.built_of_perform (h : d.perform edits = .ok d') (hd : Built d.module) :
    Built d'.module := by
  induction edits generalizing d with
  | nil =>
    cases h
    exact hd
  | cons edit rest ih =>
    obtain ⟨next, hnext, hrest⟩ := Draft.perform_cons.mp h
    exact ih hrest ((Edit.step hnext).built hd)

theorem Draft.extends_of_perform (h : d.perform edits = .ok d') :
    d.module.Extends d'.module := by
  induction edits generalizing d with
  | nil =>
    cases h
    exact .refl _
  | cons edit rest ih =>
    obtain ⟨next, hnext, hrest⟩ := Draft.perform_cons.mp h
    exact (Edit.step hnext).extends.trans (ih hrest)

/-- Whatever operations follow, a phi gains just the pairs that are added to it. -/
theorem Draft.phiAt_of_perform (h : d.perform edits = .ok d') (hd : Built d.module)
    (hsmall : d'.module.values.size ≤ 2 ^ 32) (hphi : d.module.PhiAt v ty given) :
    d'.module.PhiAt v ty (given ++ additions v edits) := by
  induction edits generalizing d given with
  | nil =>
    cases h
    simpa [additions] using hphi
  | cons edit rest ih =>
    have hlinked := hd.linked ((Draft.extends_of_perform h).size_le.trans hsmall)
    obtain ⟨next, hnext, hrest⟩ := Draft.perform_cons.mp h
    have hstep := Edit.step hnext
    have hrun := ih hrest (hstep.built hd) (hstep.phi hlinked hphi)
    rw [List.append_assoc] at hrun
    cases hpair : edit.extension.bind (Incoming.pairFor v) <;> simpa [additions,
      hpair] using hrun

/--
After every sequence of operations the nodes are consistent, later operations change no
value, and a phi has the pairs that it was created with, followed by those that later
operations add to it.
-/
theorem perform_consistent {name : String} {past : List Edit}
    (hpast : Draft.perform ⟨.empty name, none⟩ past = .ok d)
    (hsmall : d.module.values.size ≤ 2 ^ 32) :
    d.module.Consistent ∧
    (∀ (future : List Edit) (d' : Draft), d.perform future = .ok d' →
      ∀ (id : ValueId) (v : Value), d.module.value id = .ok v →
        d'.module.value id = .ok v) ∧
    ∀ (ty : Ty) (incoming : List (ValueId × BlockId)) (phi : ValueId) (created : Module),
      d.cursor.phi d.module ty incoming = .ok (phi, created) →
      ∀ (future : List Edit) (d' : Draft),
        Draft.perform ⟨created, d.cursor⟩ future = .ok d' →
        d'.module.values.size ≤ 2 ^ 32 →
        d'.module.HasIncoming phi ty (incoming ++ additions phi future) := by
  have hbuilt := Draft.built_of_perform hpast (.empty name)
  have hlinked := hbuilt.linked hsmall
  refine ⟨hlinked.consistent (hbuilt.hasParams hsmall) hsmall, ?_, ?_⟩
  · intro future d' hfuture id v hv
    exact Module.value_eq_ok.mpr
      ((Draft.extends_of_perform hfuture).values _ _ (Module.value_eq_ok.mp hv))
  · intro ty incoming phi created hcreated future d' hfuture hsmall'
    have hstep : Step d.module none created := by
      obtain ⟨_, -, hpush⟩ := bind_eq_ok.mp hcreated
      exact .of_push hpush
    have hphi := Cursor.phiAt_of_phi hcreated hlinked
      ((Draft.extends_of_perform hfuture).size_le.trans hsmall')
    exact (Draft.phiAt_of_perform hfuture (hstep.built hbuilt) hsmall' hphi).hasIncoming

/-- A function with an entry block and a loop, and a zero to start from. -/
def loopHead : List Edit :=
  [.defineFunction "count" ⟨[.int .w64], .void, false⟩, .appendBlock ⟨0⟩ (some "entry"),
    .appendBlock ⟨0⟩ (some "loop"), .constant (.int .w64) (.int 0), .position ⟨1⟩]

/--
After the phi `5` of the loop: a second phi, which is extended too, the sum, and the jump
back.
-/
def loopBody : List Edit :=
  [.phi (.int .w64) [(⟨4⟩, ⟨0⟩)], .binary .add ⟨5⟩ ⟨1⟩, .addPhiIncoming ⟨6⟩ ⟨1⟩ ⟨1⟩,
    .addPhiIncoming ⟨5⟩ ⟨7⟩ ⟨1⟩, .br ⟨1⟩]

/-- The first phi has the zero from the entry block and the sum from the loop. -/
theorem loop_consistent :
    ∃ d created d', Draft.perform ⟨.empty "m", none⟩ loopHead = .ok d ∧
      d.module.Consistent ∧
      d.cursor.phi d.module (.int .w64) [(⟨4⟩, ⟨0⟩)] = .ok (⟨5⟩, created) ∧
      Draft.perform ⟨created, d.cursor⟩ loopBody = .ok d' ∧
      d'.module.HasIncoming ⟨5⟩ (.int .w64) [(⟨4⟩, ⟨0⟩), (⟨7⟩, ⟨1⟩)] := by
  obtain ⟨d, hd, htest⟩ := exists_of_yields
    (show yields (Draft.perform ⟨.empty "m", none⟩ loopHead) (fun d =>
      decide (d.module.values.size ≤ 2 ^ 32) &&
        yields (d.cursor.phi d.module (.int .w64) [(⟨4⟩, ⟨0⟩)]) fun r =>
          decide (r.1 = ⟨5⟩) && yields (Draft.perform ⟨r.2, d.cursor⟩ loopBody) fun d' =>
            decide (d'.module.values.size ≤ 2 ^ 32)) = true by decide +kernel)
  obtain ⟨hsmall, htest⟩ := Bool.and_eq_true_iff.mp htest
  obtain ⟨⟨phi, created⟩, hcreated, htest⟩ := exists_of_yields htest
  obtain ⟨hphi, htest⟩ := Bool.and_eq_true_iff.mp htest
  obtain ⟨d', hd', hsmall'⟩ := exists_of_yields htest
  obtain rfl : phi = ⟨5⟩ := of_decide_eq_true hphi
  obtain ⟨hconsistent, -, hphis⟩ := perform_consistent hd (of_decide_eq_true hsmall)
  exact ⟨d, created, d', hd, hconsistent, hcreated, hd',
    hphis _ _ _ _ hcreated _ _ hd' (of_decide_eq_true hsmall')⟩

end InstSelect.IR
