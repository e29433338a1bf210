import InstSelect.IR.Build
import InstSelect.Proofs.Runs

/-!
# Modules that were built

Modules are extended by a few operations, each of which adds a value, mostly together with
the node that the value stands for. `Built` collects the modules that these operations
lead to. Ids are 32-bit, so as long as a built module has at most `2 ^ 32` values its ids
tell its nodes apart, and then values and nodes refer to each other: a module is `Linked`.
-/

namespace InstSelect.IR

open Lowering (bind_eq_ok pure_eq_ok require_eq_ok)

variable {id pred : BlockId} {i : Inst} {b : Block} {f : Function} {α : Type}
  {k j n : Nat} {ty : Ty} {phi value : ValueId} {func : FuncId} {v : Value}
  {g : GlobalId} {alignment : UInt32} {opcode : Opcode} {operands : List ValueId}
  {name : Option String}

/-- The modules that the building operations lead to. -/
inductive Built : Module → Prop
  | empty (name : String) : Built (.empty name)
  | constant {m : Module} (built : Built m) (ty : Ty) (c : Constant) :
      Built (m.constant ty c).2
  | addFunction {m : Module} (built : Built m) (name : String) (sig : FnSig)
      (isExternal : Bool) :
      Built (m.addFunction name sig isExternal).2
  | addGlobal {m : Module} (built : Built m) (name : String) (ty : Ty)
      (initializer : Option ValueId) : Built (m.addGlobal name ty initializer).2
  | setGlobalAlignment {m m' : Module} {g : GlobalId} {alignment : UInt32}
      (built : Built m) (run : m.setGlobalAlignment g alignment = .ok m') : Built m'
  | appendBlock {m m' : Module} {func : FuncId} {name : Option String} {id : BlockId}
      (built : Built m) (run : m.appendBlock func name = .ok (id, m')) : Built m'
  | appendInst {m m' : Module} {block : BlockId} {opcode : Opcode}
      {operands : List ValueId} {ty : Ty} {v : ValueId} (built : Built m)
      (run : m.appendInst block opcode operands ty = .ok (v, m')) : Built m'
  | addPhiIncoming {m m' : Module} {phi value : ValueId} {pred : BlockId}
      (built : Built m) (run : m.addPhiIncoming phi value pred = .ok m') : Built m'

namespace Module

variable {m m' : Module}

/-! ## Look-ups by id -/

theorem value_eq_ok {id : ValueId} :
    m.value id = .ok v ↔ m.values[id.index.toNat]? = some v := by
  unfold value
  cases m.values[id.index.toNat]? <;> simp

theorem inst_eq_ok {id : InstId} :
    m.inst id = .ok i ↔ m.insts[id.index.toNat]? = some i := by
  unfold inst
  cases m.insts[id.index.toNat]? <;> simp

theorem block_eq_ok : m.block id = .ok b ↔ m.blocks[id.index.toNat]? = some b := by
  unfold block
  cases m.blocks[id.index.toNat]? <;> simp

theorem function_eq_ok {id : FuncId} :
    m.function id = .ok f ↔ m.functions[id.index.toNat]? = some f := by
  unfold function
  cases m.functions[id.index.toNat]? <;> simp

theorem global_eq_ok {id : GlobalId} {g : Global} :
    m.global id = .ok g ↔ m.globals[id.index.toNat]? = some g := by
  unfold global
  cases m.globals[id.index.toNat]? <;> simp

/-! ## Links -/

/--
What the value at place `k` stands for, by its kind: a node of that type which knows its
value.
-/
def Refers (m : Module) (k : Nat) (ty : Ty) : ValueKind → Prop
  | .instruction id =>
    ∃ i, m.insts[id.index.toNat]? = some i ∧ i.value = ⟨.ofNat k⟩ ∧ i.ty = ty
  | .argument g j => ∃ f, m.functions[g.index.toNat]? = some f ∧
      f.params[j.toNat]? = some ⟨.ofNat k⟩ ∧ f.sig.params[j.toNat]? = some ty
  | .constant _ => True
  | .function g => ∃ f, m.functions[g.index.toNat]? = some f ∧ f.value = ⟨.ofNat k⟩ ∧
      ty = .ptr (.ofSig f.sig)
  | .global g =>
    ∃ d, m.globals[g.index.toNat]? = some d ∧ d.value = ⟨.ofNat k⟩ ∧ ty = .ptr d.ty
  | .block b => ∃ d, m.blocks[b.index.toNat]? = some d ∧ d.value = ⟨.ofNat k⟩ ∧ ty = .void

/-- An instruction has its value, and stands in its block. -/
structure InstLinked (m : Module) (k : Nat) (i : Inst) : Prop where
  value : m.values[i.value.index.toNat]? = some ⟨i.ty, .instruction ⟨.ofNat k⟩⟩
  block : ∃ b, m.blocks[i.block.index.toNat]? = some b ∧ ⟨.ofNat k⟩ ∈ b.insts

/-- A block has its value, belongs to a function, and knows its instructions. -/
structure BlockLinked (m : Module) (k : Nat) (b : Block) : Prop where
  value : m.values[b.value.index.toNat]? = some ⟨.void, .block ⟨.ofNat k⟩⟩
  func : ∃ f, m.functions[b.func.index.toNat]? = some f ∧ ⟨.ofNat k⟩ ∈ f.blocks ∧
    f.isExternal = false
  nodup : b.insts.Nodup
  insts : ∀ id ∈ b.insts, ∃ i, m.insts[id.index.toNat]? = some i ∧ i.block = ⟨.ofNat k⟩

/-- A function has its value, one value for each parameter, and knows its blocks. -/
structure FunctionLinked (m : Module) (k : Nat) (f : Function) : Prop where
  value : m.values[f.value.index.toNat]? =
    some ⟨.ptr (.ofSig f.sig), .function ⟨.ofNat k⟩⟩
  params : f.params.length = f.sig.params.length
  nodup : f.blocks.Nodup
  blocks : ∀ id ∈ f.blocks, ∃ b, m.blocks[id.index.toNat]? = some b ∧ b.func = ⟨.ofNat k⟩

/-- Values and nodes refer to each other. -/
structure Linked (m : Module) : Prop where
  values : ∀ (k : Nat) (v : Value), m.values[k]? = some v → m.Refers k v.ty v.kind
  insts : ∀ (k : Nat) (i : Inst), m.insts[k]? = some i → m.InstLinked k i
  blocks : ∀ (k : Nat) (b : Block), m.blocks[k]? = some b → m.BlockLinked k b
  functions : ∀ (k : Nat) (f : Function), m.functions[k]? = some f → m.FunctionLinked k f
  globals : ∀ (k : Nat) (g : Global), m.globals[k]? = some g →
    m.values[g.value.index.toNat]? = some ⟨.ptr g.ty, .global ⟨.ofNat k⟩⟩
  size : m.insts.size ≤ m.values.size ∧ m.blocks.size ≤ m.values.size ∧
    m.functions.size ≤ m.values.size ∧ m.globals.size ≤ m.values.size

/-! ## Extension -/

/--
Every node of `m` is still in `m'`, with the same links, and perhaps with more parts.
-/
structure Extends (m m' : Module) : Prop where
  values : ∀ (k : Nat) (v : Value), m.values[k]? = some v → m'.values[k]? = some v
  insts : ∀ (k : Nat) (i : Inst), m.insts[k]? = some i →
    ∃ i', m'.insts[k]? = some i' ∧ i'.value = i.value ∧ i'.ty = i.ty ∧ i'.block = i.block
  blocks : ∀ (k : Nat) (b : Block), m.blocks[k]? = some b →
    ∃ b', m'.blocks[k]? = some b' ∧ b'.value = b.value ∧ b'.func = b.func ∧
    b.insts ⊆ b'.insts
  functions : ∀ (k : Nat) (f : Function), m.functions[k]? = some f →
    ∃ f', m'.functions[k]? = some f' ∧ f'.value = f.value ∧ f'.sig = f.sig ∧
      f'.params = f.params ∧ f'.isExternal = f.isExternal ∧ f.blocks ⊆ f'.blocks
  globals : ∀ (k : Nat) (g : Global), m.globals[k]? = some g →
    ∃ g', m'.globals[k]? = some g' ∧ g'.value = g.value ∧ g'.ty = g.ty

namespace Extends

theorem refl (m : Module) : Extends m m :=
  ⟨fun _ _ hv => hv, fun _ i hi => ⟨i, hi, rfl, rfl, rfl⟩,
    fun _ b hb => ⟨b, hb, rfl, rfl, List.Subset.refl _⟩,
    fun _ f hf => ⟨f, hf, rfl, rfl, rfl, rfl, List.Subset.refl _⟩,
    fun _ g hg => ⟨g, hg, rfl, rfl⟩⟩

/-- Pushing a node keeps the others. -/
theorem getElem?_push {xs : Array α} {x a : α} (h : xs[k]? = some a) :
    (xs.push x)[k]? = some a := by
  have hlt := (Array.getElem?_eq_some_iff.mp h).1
  rw [Array.getElem?_push_lt hlt, ← Array.getElem?_eq_getElem hlt, h]

theorem refers (he : Extends m m') {kind : ValueKind} (h : m.Refers k ty kind) :
    m'.Refers k ty kind := by
  cases kind with
  | instruction id =>
    obtain ⟨i, hi, hv, rfl⟩ := h
    obtain ⟨i', hi', hv', hty, -⟩ := he.insts _ i hi
    exact ⟨i', hi', hv'.trans hv, hty⟩
  | argument g j =>
    obtain ⟨f, hf, hp, hty⟩ := h
    obtain ⟨f', hf', -, hsig, hparams, -⟩ := he.functions _ f hf
    exact ⟨f', hf', by rw [hparams, hp], by rw [hsig, hty]⟩
  | constant c => trivial
  | function g =>
    obtain ⟨f, hf, hv, rfl⟩ := h
    obtain ⟨f', hf', hv', hsig, -⟩ := he.functions _ f hf
    exact ⟨f', hf', hv'.trans hv, by rw [hsig]⟩
  | global g =>
    obtain ⟨d, hd, hv, rfl⟩ := h
    obtain ⟨d', hd', hv', hty⟩ := he.globals _ d hd
    exact ⟨d', hd', hv'.trans hv, by rw [hty]⟩
  | block b =>
    obtain ⟨d, hd, hv, rfl⟩ := h
    obtain ⟨d', hd', hv', -⟩ := he.blocks _ d hd
    exact ⟨d', hd', hv'.trans hv, rfl⟩

theorem instLinked (he : Extends m m') {i' : Inst} (h : m.InstLinked k i)
    (hvalue : i'.value = i.value) (hty : i'.ty = i.ty) (hblock : i'.block = i.block) :
    m'.InstLinked k i' where
  value := by rw [hvalue, hty]; exact he.values _ _ h.value
  block := by
    obtain ⟨b, hb, hmem⟩ := h.block
    obtain ⟨b', hb', -, -, hsub⟩ := he.blocks _ b hb
    exact ⟨b', by rw [hblock, hb'], hsub hmem⟩

/-- A block keeps its links as long as its own list of instructions stays. -/
theorem blockLinked (he : Extends m m') (h : m.BlockLinked k b) :
    m'.BlockLinked k b where
  value := he.values _ _ h.value
  func := by
    obtain ⟨f, hf, hmem, hext⟩ := h.func
    obtain ⟨f', hf', -, -, -, hext', hsub⟩ := he.functions _ f hf
    exact ⟨f', hf', hsub hmem, hext'.trans hext⟩
  nodup := h.nodup
  insts := by
    intro id hid
    obtain ⟨i, hi, hblock⟩ := h.insts id hid
    obtain ⟨i', hi', -, -, hblock'⟩ := he.insts _ i hi
    exact ⟨i', hi', hblock'.trans hblock⟩

/-- A function keeps its links as long as its own list of blocks stays. -/
theorem functionLinked (he : Extends m m') (h : m.FunctionLinked k f) :
    m'.FunctionLinked k f where
  value := he.values _ _ h.value
  params := h.params
  nodup := h.nodup
  blocks := by
    intro id hid
    obtain ⟨b, hb, hfunc⟩ := h.blocks id hid
    obtain ⟨b', hb', -, hfunc', -⟩ := he.blocks _ b hb
    exact ⟨b', hb', hfunc'.trans hfunc⟩

end Extends

theorem Extends.size_le (h : Extends m m') : m.values.size ≤ m'.values.size := by
  by_contra hlt
  have hmem := h.values m'.values.size _ (Array.getElem?_eq_getElem (Nat.not_le.mp hlt))
  rw [Array.getElem?_eq_none (Nat.le_refl _)] at hmem
  cases hmem

theorem of_getElem?_push {xs : Array α} {x a : α} (h : (xs.push x)[k]? = some a) :
    xs[k]? = some a ∨ k = xs.size ∧ a = x := by
  rw [Array.getElem?_push] at h
  split at h
  · next hk => exact .inr ⟨hk, (Option.some.inj h).symm⟩
  · exact .inl h

theorem of_getElem?_setIfInBounds {xs : Array α} {x a : α}
    (h : (xs.setIfInBounds j x)[k]? = some a) :
    xs[k]? = some a ∨ k = j ∧ a = x ∧ j < xs.size := by
  by_cases hjk : j = k
  · subst hjk
    rw [Array.getElem?_setIfInBounds_self] at h
    split at h
    · next hlt => exact .inr ⟨rfl, (Option.some.inj h).symm, hlt⟩
    · cases h
  · rw [Array.getElem?_setIfInBounds_ne hjk] at h
    exact .inl h

/-- Replacing one node: the others stay, and it is the new one. -/
theorem getElem?_replace {xs : Array α} {x a old : α} (hold : xs[j]? = some old)
    (h : xs[k]? = some a) :
    (xs.setIfInBounds j x)[k]? = some a ∨
      k = j ∧ a = old ∧ (xs.setIfInBounds j x)[k]? = some x := by
  by_cases hjk : j = k
  · subst hjk
    cases hold.symm.trans h
    exact .inr ⟨rfl, rfl,
      Array.getElem?_setIfInBounds_self_of_lt (Array.getElem?_eq_some_iff.mp h).1⟩
  · rw [Array.getElem?_setIfInBounds_ne hjk]
    exact .inl h

theorem toNat_ofNat_of_lt (h : k < n) (hn : n ≤ 2 ^ 32) : (UInt32.ofNat k).toNat = k :=
  UInt32.toNat_ofNat_of_lt' (Nat.lt_of_lt_of_le h hn)

/-- The id that a new node gets leads to it. -/
theorem getElem?_push_ofNat {xs : Array α} {x : α} (h : xs.size < n) (hn : n ≤ 2 ^ 32) :
    (xs.push x)[(UInt32.ofNat xs.size).toNat]? = some x := by
  rw [toNat_ofNat_of_lt h hn, Array.getElem?_push_size]

/-! ### The building operations extend -/

theorem extends_constant (m : Module) (ty : Ty) (c : Constant) :
    Extends m (m.constant ty c).2 :=
  { Extends.refl m with values := fun _ _ hv => Extends.getElem?_push hv }

theorem extends_addGlobal (m : Module) (name : String) (ty : Ty)
    (initializer : Option ValueId) :
    Extends m (m.addGlobal name ty initializer).2 :=
  { Extends.refl m with
    values := fun _ _ hv => Extends.getElem?_push hv
    globals := fun _ g hg => ⟨g, Extends.getElem?_push hg, rfl, rfl⟩ }

theorem extends_setGlobalAlignment (hrun : m.setGlobalAlignment g alignment = .ok m') :
    Extends m m' := by
  simp only [Module.setGlobalAlignment, bind_eq_ok, global_eq_ok, pure_eq_ok] at hrun
  obtain ⟨d, hd, rfl⟩ := hrun
  refine { Extends.refl m with globals := fun k d' hd' => ?_ }
  rcases getElem?_replace hd hd' with hother | ⟨-, rfl, hnew⟩
  · exact ⟨d', hother, rfl, rfl⟩
  · exact ⟨_, hnew, rfl, rfl⟩

/-- The instruction that is found behind a phi. -/
theorem phiInst_eq_ok {id : InstId} :
    m.phiInst phi = .ok (id, i) ↔
      ∃ ty, m.values[phi.index.toNat]? = some ⟨ty, .instruction id⟩ ∧
      m.insts[id.index.toNat]? = some i ∧ i.opcode = .phi := by
  simp only [phiInst, bind_eq_ok, value_eq_ok]
  constructor
  · rintro ⟨⟨ty, kind⟩, hv, hkind⟩
    cases kind with
    | instruction k =>
      obtain ⟨j, hj, hop⟩ := bind_eq_ok.mp hkind
      split at hop
      · next hphi =>
        cases hop
        exact ⟨ty, hv, inst_eq_ok.mp hj, hphi⟩
      · cases hop
    | _ => cases hkind
  · rintro ⟨ty, hv, hi, hphi⟩
    exact ⟨_, hv, bind_eq_ok.mpr ⟨i, inst_eq_ok.mpr hi, if_pos hphi⟩⟩

/-- A phi that is extended keeps all but its operands. -/
theorem addPhiIncoming_eq_ok (hrun : m.addPhiIncoming phi value pred = .ok m') :
    ∃ ty id i b, m.values[phi.index.toNat]? = some ⟨ty, .instruction id⟩ ∧
      m.insts[id.index.toNat]? = some i ∧ i.opcode = .phi ∧
        m.blocks[pred.index.toNat]? = some b ∧
      m' = { m with
        insts := m.insts.setIfInBounds id.index.toNat
          { i with operands := i.operands ++ [value, b.value] } } := by
  simp only [Module.addPhiIncoming, blockValue, bind_eq_ok, block_eq_ok, pure_eq_ok,
    Prod.exists] at hrun
  obtain ⟨id, i, hphi, _, ⟨b, hb, rfl⟩, rfl⟩ := hrun
  obtain ⟨ty, hv, hi, hop⟩ := phiInst_eq_ok.mp hphi
  exact ⟨ty, id, i, b, hv, hi, hop, hb, rfl⟩

theorem extends_addPhiIncoming (hrun : m.addPhiIncoming phi value pred = .ok m') :
    Extends m m' := by
  obtain ⟨ty, id, i, b, -, hi, -, -, rfl⟩ := addPhiIncoming_eq_ok hrun
  refine { Extends.refl m with insts := fun k j hj => ?_ }
  rcases getElem?_replace hi hj with hother | ⟨-, rfl, hnew⟩
  · exact ⟨j, hother, rfl, rfl, rfl⟩
  · exact ⟨_, hnew, rfl, rfl, rfl⟩

theorem extends_appendInst {block : BlockId} {v : ValueId}
    (hrun : m.appendInst block opcode operands ty = .ok (v, m')) : Extends m m' := by
  simp only [Module.appendInst, bind_eq_ok, block_eq_ok, pure_eq_ok, pushValue,
    Prod.mk.injEq] at hrun
  obtain ⟨b, hb, -, rfl⟩ := hrun
  refine { Extends.refl m with
    values := fun k v hv => Extends.getElem?_push hv
    insts := fun k i hi => ⟨i, Extends.getElem?_push hi, rfl, rfl, rfl⟩
    blocks := fun k b' hb' => ?_ }
  rcases getElem?_replace hb hb' with hother | ⟨-, rfl, hnew⟩
  · exact ⟨b', hother, rfl, rfl, List.Subset.refl _⟩
  · exact ⟨_, hnew, rfl, rfl, List.subset_append_left _ _⟩

theorem extends_appendBlock (hrun : m.appendBlock func name = .ok (id, m')) :
    Extends m m' := by
  simp only [Module.appendBlock, bind_eq_ok, function_eq_ok, pure_eq_ok, pushValue,
    Prod.mk.injEq] at hrun
  obtain ⟨f, hf, -, -, -, rfl⟩ := hrun
  refine { Extends.refl m with
    values := fun k v hv => Extends.getElem?_push hv
    blocks := fun k b hb => ⟨b, Extends.getElem?_push hb, rfl, rfl, List.Subset.refl _⟩
    functions := fun k f' hf' => ?_ }
  rcases getElem?_replace hf hf' with hother | ⟨-, rfl, hnew⟩
  · exact ⟨f', hother, rfl, rfl, rfl, rfl, List.Subset.refl _⟩
  · exact ⟨_, hnew, rfl, rfl, rfl, rfl, List.subset_append_left _ _⟩

/-- An extended module is linked if what is new in it is. -/
theorem Linked.extend (h : Linked m) (he : Extends m m')
    (hvalues : ∀ (k : Nat) (v : Value), m'.values[k]? = some v →
      m.values[k]? = some v ∨ m'.Refers k v.ty v.kind)
    (hinsts : ∀ (k : Nat) (i' : Inst), m'.insts[k]? = some i' →
      (∃ i, m.insts[k]? = some i ∧ i'.value = i.value ∧ i'.ty = i.ty ∧
        i'.block = i.block) ∨
        m'.InstLinked k i')
    (hblocks : ∀ (k : Nat) (b : Block), m'.blocks[k]? = some b →
      m.blocks[k]? = some b ∨ m'.BlockLinked k b)
    (hfunctions : ∀ (k : Nat) (f : Function), m'.functions[k]? = some f →
      m.functions[k]? = some f ∨ m'.FunctionLinked k f)
    (hglobals : ∀ (k : Nat) (g' : Global), m'.globals[k]? = some g' →
      (∃ g, m.globals[k]? = some g ∧ g'.value = g.value ∧ g'.ty = g.ty) ∨
        m'.values[g'.value.index.toNat]? = some ⟨.ptr g'.ty, .global ⟨.ofNat k⟩⟩)
    (hsize : m'.insts.size ≤ m'.values.size ∧ m'.blocks.size ≤ m'.values.size ∧
      m'.functions.size ≤ m'.values.size ∧ m'.globals.size ≤ m'.values.size) :
    Linked m' where
  values := by
    intro k v hv
    rcases hvalues k v hv with hold | hnew
    · exact he.refers (h.values k v hold)
    · exact hnew
  insts := by
    intro k i' hi'
    rcases hinsts k i' hi' with ⟨i, hold, hvalue, hty, hblock⟩ | hnew
    · exact he.instLinked (h.insts k i hold) hvalue hty hblock
    · exact hnew
  blocks := by
    intro k b hb
    rcases hblocks k b hb with hold | hnew
    · exact he.blockLinked (h.blocks k b hold)
    · exact hnew
  functions := by
    intro k f hf
    rcases hfunctions k f hf with hold | hnew
    · exact he.functionLinked (h.functions k f hold)
    · exact hnew
  globals := by
    intro k g' hg'
    rcases hglobals k g' hg' with ⟨g, hold, hvalue, hty⟩ | hnew
    · rw [hvalue, hty]
      exact he.values _ _ (h.globals k g hold)
    · exact hnew
  size := hsize

/-- A block may gain an instruction that stands in it. -/
theorem BlockLinked.append {id : InstId} (h : m.BlockLinked k b)
    (hi : m.insts[id.index.toNat]? = some i) (hblock : i.block = ⟨.ofNat k⟩)
    (hnew : id ∉ b.insts) :
    m.BlockLinked k { b with insts := b.insts ++ [id] } where
  value := h.value
  func := h.func
  nodup := (List.perm_append_singleton _ _).nodup_iff.mpr
    (List.nodup_cons.mpr ⟨hnew, h.nodup⟩)
  insts := by
    intro id' hid'
    rcases List.mem_append.mp hid' with hold | hlast
    · exact h.insts id' hold
    · obtain rfl := List.mem_singleton.mp hlast
      exact ⟨i, hi, hblock⟩

/-- A function may gain a block that belongs to it. -/
theorem FunctionLinked.append (h : m.FunctionLinked k f)
    (hb : m.blocks[id.index.toNat]? = some b) (hfunc : b.func = ⟨.ofNat k⟩)
    (hnew : id ∉ f.blocks) :
    m.FunctionLinked k { f with blocks := f.blocks ++ [id] } where
  value := h.value
  params := h.params
  nodup := (List.perm_append_singleton _ _).nodup_iff.mpr
    (List.nodup_cons.mpr ⟨hnew, h.nodup⟩)
  blocks := by
    intro id' hid'
    rcases List.mem_append.mp hid' with hold | hlast
    · exact h.blocks id' hold
    · obtain rfl := List.mem_singleton.mp hlast
      exact ⟨b, hb, hfunc⟩

/-! ## The building operations -/

theorem linked_empty (name : String) : Linked (.empty name) := by
  refine ⟨?_, ?_, ?_, ?_, ?_, ?_⟩ <;> simp [empty]

theorem Linked.constant (h : Linked m) (ty : Ty) (c : Constant) :
    Linked (m.constant ty c).2 := by
  have hsize := h.size
  refine h.extend ?_ ?_ (fun k i hi => .inl ⟨i, hi, rfl, rfl, rfl⟩)
    (fun k b hb => .inl hb) (fun k f hf => .inl hf)
    (fun k g hg => .inl ⟨g, hg, rfl, rfl⟩) ?_
  · exact extends_constant m ty c
  · intro k v hv
    rcases of_getElem?_push hv with hold | ⟨-, rfl⟩
    · exact .inl hold
    · exact .inr trivial
  · simp only [Module.constant, pushValue, Array.size_push]
    omega

theorem Linked.addGlobal (h : Linked m) (name : String) (ty : Ty)
    (initializer : Option ValueId)
    (hsmall : (m.addGlobal name ty initializer).2.values.size ≤ 2 ^ 32) :
    Linked (m.addGlobal name ty initializer).2 := by
  have hsize := h.size
  simp only [Module.addGlobal, pushValue, Array.size_push] at hsmall
  refine h.extend ?_ ?_ (fun k i hi => .inl ⟨i, hi, rfl, rfl, rfl⟩)
    (fun k b hb => .inl hb) (fun k f hf => .inl hf) ?_ ?_
  · exact extends_addGlobal m name ty initializer
  · intro k v hv
    rcases of_getElem?_push hv with hold | ⟨rfl, rfl⟩
    · exact .inl hold
    · exact .inr ⟨_, getElem?_push_ofNat (Nat.lt_succ_of_le hsize.2.2.2) hsmall, rfl, rfl⟩
  · intro k g hg
    rcases of_getElem?_push hg with hold | ⟨rfl, rfl⟩
    · exact .inl ⟨g, hold, rfl, rfl⟩
    · exact .inr (getElem?_push_ofNat (Nat.lt_succ_self _) hsmall)
  · simp only [Module.addGlobal, pushValue, Array.size_push]
    omega

theorem Linked.setGlobalAlignment (h : Linked m)
    (hrun : m.setGlobalAlignment g alignment = .ok m') : Linked m' := by
  have he := extends_setGlobalAlignment hrun
  simp only [Module.setGlobalAlignment, bind_eq_ok, global_eq_ok, pure_eq_ok] at hrun
  obtain ⟨d, hd, rfl⟩ := hrun
  refine h.extend he (fun k v hv => .inl hv) (fun k i hi => .inl ⟨i, hi, rfl, rfl, rfl⟩)
    (fun k b hb => .inl hb) (fun k f hf => .inl hf) ?_ ?_
  · intro k d' hd'
    rcases of_getElem?_setIfInBounds hd' with hold | ⟨rfl, rfl, -⟩
    · exact .inl ⟨d', hold, rfl, rfl⟩
    · exact .inl ⟨d, hd, rfl, rfl⟩
  · simpa using h.size

theorem Linked.addPhiIncoming (h : Linked m)
    (hrun : m.addPhiIncoming phi value pred = .ok m') : Linked m' := by
  have he := extends_addPhiIncoming hrun
  obtain ⟨ty, id, i, b, -, hi, -, -, rfl⟩ := addPhiIncoming_eq_ok hrun
  refine h.extend he (fun k v hv => .inl hv) ?_ (fun k b hb => .inl hb)
    (fun k f hf => .inl hf) (fun k g hg => .inl ⟨g, hg, rfl, rfl⟩) ?_
  · intro k j hj
    rcases of_getElem?_setIfInBounds hj with hold | ⟨rfl, rfl, -⟩
    · exact .inl ⟨j, hold, rfl, rfl, rfl⟩
    · exact .inl ⟨i, hi, rfl, rfl, rfl⟩
  · simpa using h.size

theorem Linked.appendInst {block : BlockId} {v : ValueId} (h : Linked m)
    (hrun : m.appendInst block opcode operands ty = .ok (v, m'))
    (hsmall : m'.values.size ≤ 2 ^ 32) : Linked m' := by
  have he := extends_appendInst hrun
  simp only [Module.appendInst, bind_eq_ok, block_eq_ok, pure_eq_ok, pushValue,
    Prod.mk.injEq] at hrun
  obtain ⟨b, hb, rfl, rfl⟩ := hrun
  have hsize := h.size
  simp only [Array.size_push] at hsmall
  have hinst := toNat_ofNat_of_lt (k := m.insts.size) (by omega) hsmall
  let i : Inst := ⟨opcode, operands, ty, block, ⟨.ofNat m.values.size⟩⟩
  let m' : Module := { m with
    values := m.values.push ⟨ty, .instruction ⟨.ofNat m.insts.size⟩⟩
    insts := m.insts.push i
    blocks := m.blocks.setIfInBounds block.index.toNat
      { b with insts := b.insts ++ [⟨.ofNat m.insts.size⟩] } }
  have hi : m'.insts[(UInt32.ofNat m.insts.size).toNat]? = some i :=
    getElem?_push_ofNat (by omega) hsmall
  refine h.extend he ?_ ?_ ?_ (fun k f hf => .inl hf)
    (fun k g hg => .inl ⟨g, hg, rfl, rfl⟩) ?_
  · intro k w hw
    rcases of_getElem?_push hw with hold | ⟨rfl, rfl⟩
    · exact .inl hold
    · exact .inr ⟨i, hi, rfl, rfl⟩
  · intro k j hj
    rcases of_getElem?_push hj with hold | ⟨rfl, rfl⟩
    · exact .inl ⟨j, hold, rfl, rfl, rfl⟩
    · exact .inr ⟨getElem?_push_ofNat (Nat.lt_succ_self _) hsmall, _,
        Array.getElem?_setIfInBounds_self_of_lt (Array.getElem?_eq_some_iff.mp hb).1,
        List.mem_append_right _ (List.mem_singleton_self _)⟩
  · intro k b' hb'
    rcases of_getElem?_setIfInBounds hb' with hold | ⟨rfl, rfl, -⟩
    · exact .inl hold
    · refine .inr ((he.blockLinked (h.blocks _ b hb)).append hi (by simp [i])
        fun hmem => ?_)
      -- The ids in a block are those of older instructions.
      obtain ⟨j, hj, -⟩ := (h.blocks _ b hb).insts _ hmem
      rw [hinst, Array.getElem?_eq_none (Nat.le_refl _)] at hj
      cases hj
  · simp only [Array.size_push, Array.size_setIfInBounds]
    omega

theorem Linked.appendBlock (h : Linked m)
    (hrun : m.appendBlock func name = .ok (id, m')) (hsmall : m'.values.size ≤ 2 ^ 32) :
    Linked m' := by
  have he := extends_appendBlock hrun
  simp only [Module.appendBlock, bind_eq_ok, function_eq_ok, require_eq_ok, pure_eq_ok,
    pushValue, Prod.mk.injEq, Bool.not_eq_true'] at hrun
  obtain ⟨f, hf, -, hext, rfl, rfl⟩ := hrun
  have hsize := h.size
  simp only [Array.size_push] at hsmall
  have hblock := toNat_ofNat_of_lt (k := m.blocks.size) (by omega) hsmall
  let b : Block := ⟨func, name, [], ⟨.ofNat m.values.size⟩⟩
  let m' : Module := { m with
    values := m.values.push ⟨.void, .block ⟨.ofNat m.blocks.size⟩⟩
    blocks := m.blocks.push b
    functions := m.functions.setIfInBounds func.index.toNat
      { f with blocks := f.blocks ++ [⟨.ofNat m.blocks.size⟩] } }
  have hb : m'.blocks[(UInt32.ofNat m.blocks.size).toNat]? = some b :=
    getElem?_push_ofNat (by omega) hsmall
  refine h.extend he ?_ (fun k i hi => .inl ⟨i, hi, rfl, rfl, rfl⟩) ?_ ?_
    (fun k g hg => .inl ⟨g, hg, rfl, rfl⟩) ?_
  · intro k w hw
    rcases of_getElem?_push hw with hold | ⟨rfl, rfl⟩
    · exact .inl hold
    · exact .inr ⟨b, hb, rfl, rfl⟩
  · intro k d hd
    rcases of_getElem?_push hd with hold | ⟨rfl, rfl⟩
    · exact .inl hold
    · refine .inr ⟨getElem?_push_ofNat (Nat.lt_succ_self _) hsmall, ?_, List.nodup_nil,
        fun id hid => by cases hid⟩
      exact ⟨_, Array.getElem?_setIfInBounds_self_of_lt
        (Array.getElem?_eq_some_iff.mp hf).1,
        List.mem_append_right _ (List.mem_singleton_self _), hext⟩
  · intro k f' hf'
    rcases of_getElem?_setIfInBounds hf' with hold | ⟨rfl, rfl, -⟩
    · exact .inl hold
    · refine .inr ((he.functionLinked (h.functions _ f hf)).append hb (by simp [b])
        fun hmem => ?_)
      obtain ⟨d, hd, -⟩ := (h.functions _ f hf).blocks _ hmem
      rw [hblock, Array.getElem?_eq_none (Nat.le_refl _)] at hd
      cases hd
  · simp only [Array.size_push, Array.size_setIfInBounds]
    omega

/-- The values of parameters, the first having index `index`. -/
def paramValues (func : FuncId) (index : Nat) (tys : List Ty) : List Value :=
  (tys.zipIdx index).map fun x => ⟨x.1, .argument func (.ofNat x.2)⟩

theorem pushParams_eq (func : FuncId) (index : Nat) (tys : List Ty) (m : Module) :
    pushParams func index tys m =
      ((List.range' m.values.size tys.length).map fun k => ⟨.ofNat k⟩,
        { m with values := m.values ++ (paramValues func index tys).toArray }) := by
  induction tys generalizing index m with
  | nil => simp [pushParams, paramValues]
  | cons ty rest ih =>
    simp only [pushParams, pushValue, ih, Array.size_push, List.length_cons,
      List.range'_succ, List.map_cons, paramValues, List.zipIdx_cons]
    simp

theorem size_paramValues (func : FuncId) (index : Nat) (tys : List Ty) :
    (paramValues func index tys).toArray.size = tys.length := by
  simp [paramValues]

/--
The values of a module after a function was added: older ones, the function's, its
parameters'.
-/
theorem of_getElem?_addFunction {xs : Array Value} {x : Value} {tys : List Ty}
    (h : (xs.push x ++ (paramValues func 0 tys).toArray)[k]? = some v) :
    xs[k]? = some v ∨ k = xs.size ∧ v = x ∨
      ∃ j ty, k = xs.size + 1 + j ∧ tys[j]? = some ty ∧
        v = ⟨ty, .argument func (.ofNat j)⟩ := by
  rw [Array.getElem?_append] at h
  split at h
  · rcases of_getElem?_push h with hold | hnew
    · exact .inl hold
    · exact .inr (.inl hnew)
  · next hge =>
    rw [Array.size_push, Nat.not_lt] at hge
    obtain ⟨j, rfl⟩ := Nat.exists_eq_add_of_le hge
    rw [Array.size_push, Nat.add_sub_cancel_left, List.getElem?_toArray, paramValues,
      List.getElem?_map, List.getElem?_zipIdx, Option.map_map,
      Option.map_eq_some_iff] at h
    obtain ⟨ty, hty, rfl⟩ := h
    exact .inr (.inr ⟨j, ty, rfl, hty, by simp⟩)

theorem extends_addFunction (m : Module) (name : String) (sig : FnSig)
    (isExternal : Bool) :
    Extends m (m.addFunction name sig isExternal).2 := by
  simp only [Module.addFunction, pushValue, pushParams_eq]
  refine { Extends.refl m with
    values := fun k v hv => ?_
    functions :=
      fun k f hf =>
      ⟨f, Extends.getElem?_push hf, rfl, rfl, rfl, rfl, List.Subset.refl _⟩ }
  have hpushed :=
    Extends.getElem?_push
      (x := ⟨.ptr (.ofSig sig), .function ⟨.ofNat m.functions.size⟩⟩) hv
  exact (Array.getElem?_append_left (Array.getElem?_eq_some_iff.mp hpushed).1).trans
    hpushed

theorem Linked.addFunction (h : Linked m) (name : String) (sig : FnSig)
    (isExternal : Bool)
    (hsmall : (m.addFunction name sig isExternal).2.values.size ≤ 2 ^ 32) :
    Linked (m.addFunction name sig isExternal).2 := by
  have hsize := h.size
  have he := extends_addFunction m name sig isExternal
  simp only [Module.addFunction, pushValue, pushParams_eq, Array.size_push,
    Array.size_append, size_paramValues] at hsmall he ⊢
  have hvalue := toNat_ofNat_of_lt (k := m.values.size) (by omega) hsmall
  let f : Function := ⟨name, sig, (List.range' (m.values.size + 1) sig.params.length).map
    fun k => ⟨.ofNat k⟩, [], isExternal, ⟨.ofNat m.values.size⟩⟩
  let x : Value := ⟨.ptr (.ofSig sig), .function ⟨.ofNat m.functions.size⟩⟩
  let m' : Module := { m with
    values := m.values.push x ++
      (paramValues ⟨.ofNat m.functions.size⟩ 0 sig.params).toArray
    functions := m.functions.push f }
  have hf : m'.functions[(UInt32.ofNat m.functions.size).toNat]? = some f :=
    getElem?_push_ofNat (by omega) hsmall
  refine h.extend he ?_ (fun k i hi => .inl ⟨i, hi, rfl, rfl, rfl⟩)
    (fun k b hb => .inl hb) ?_ (fun k g hg => .inl ⟨g, hg, rfl, rfl⟩) ?_
  · intro k v hv
    rcases of_getElem?_addFunction hv with hold | ⟨rfl, rfl⟩ | ⟨j, ty, rfl, hty, rfl⟩
    · exact .inl hold
    · exact .inr ⟨f, hf, rfl, rfl⟩
    · have hlt := (List.getElem?_eq_some_iff.mp hty).1
      have hj := toNat_ofNat_of_lt (k := j) (by omega) hsmall
      refine .inr ⟨f, hf, ?_, ?_⟩
      · rw [hj, List.getElem?_map, List.getElem?_range' hlt]
        simp
      · rw [hj]
        exact hty
  · intro k g hg
    rcases of_getElem?_push hg with hold | ⟨rfl, rfl⟩
    · exact .inl hold
    · refine .inr ⟨?_, by simp, List.nodup_nil, fun id hid => by cases hid⟩
      have hlt : m.values.size < (m.values.push x).size := by simp
      show (m.values.push _ ++ _)[(UInt32.ofNat m.values.size).toNat]? = _
      rw [hvalue, Array.getElem?_append_left hlt, Array.getElem?_push_size]
  · simp only [Array.size_push, Array.size_append, size_paramValues]
    omega

end Module

/-! ## Built modules -/

namespace Built

variable {m m' : Module} {v : ValueId}

/-! Building step by step, with the arguments of each operation spelled out. -/

theorem block (h : Built m) (func : FuncId) (name : Option String)
    (run : m.appendBlock func name = .ok (id, m')) :
    Built m' :=
  h.appendBlock run

theorem inst (h : Built m) (block : BlockId) (opcode : Opcode) (operands : List ValueId)
    (ty : Ty) (run : m.appendInst block opcode operands ty = .ok (v, m')) : Built m' :=
  h.appendInst run

theorem incoming (h : Built m) (phi value : ValueId) (pred : BlockId)
    (run : m.addPhiIncoming phi value pred = .ok m') : Built m' :=
  h.addPhiIncoming run

end Built

/-- A built module that ids are enough for is linked. -/
theorem Built.linked {m : Module} (h : Built m) (hsmall : m.values.size ≤ 2 ^ 32) :
    m.Linked := by
  induction h with
  | empty name => exact Module.linked_empty name
  | constant _ ty c ih =>
    exact (ih ((Module.extends_constant _ ty c).size_le.trans hsmall)).constant ty c
  | addFunction _ name sig isExternal ih =>
    exact (ih ((Module.extends_addFunction _ name sig isExternal).size_le.trans
      hsmall)).addFunction _ _ _ hsmall
  | addGlobal _ name ty initializer ih =>
    exact (ih ((Module.extends_addGlobal _ name ty initializer).size_le.trans
      hsmall)).addGlobal _ _ _ hsmall
  | setGlobalAlignment _ run ih =>
    exact (ih ((Module.extends_setGlobalAlignment run).size_le.trans
      hsmall)).setGlobalAlignment run
  | appendBlock _ run ih =>
    exact (ih ((Module.extends_appendBlock run).size_le.trans hsmall)).appendBlock
      run hsmall
  | appendInst _ run ih =>
    exact (ih ((Module.extends_appendInst run).size_le.trans hsmall)).appendInst
      run hsmall
  | addPhiIncoming _ run ih =>
    exact (ih ((Module.extends_addPhiIncoming run).size_le.trans hsmall)).addPhiIncoming
      run

end InstSelect.IR
