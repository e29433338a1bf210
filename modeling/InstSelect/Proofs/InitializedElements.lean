import InstSelect.Proofs.Assembly
import InstSelect.Proofs.ConstantAddresses
import InstSelect.Proofs.TypedInstructions
import InstSelect.Proofs.WholeModules

/-!
# Loads from initialized globals

The data of a global and the code that addresses it are made independently of each other:
one walks the initializer and appends bytes, the other walks a list of indices and adds up
offsets. Both follow the layout of the global's type, so the address of an element is the
place where its bytes were put.

A program is loaded by placing the image of a global at its symbol and storing the
addresses of symbols over the relocated bytes; `Loaded` says this of a memory. A load
through the address of an element then reads what was emitted for it: its bytes, or the
address that it was relocated to.
-/

namespace InstSelect.Lowering

open IR (ValueId InstId Inst Ty)
open Machine (Storage Operand OperandId VReg Code Host Cpu Memory Image Relocation)

variable {env : Env} {s s' t : State} {c c' : Current} {func : IR.FuncId}
  {code : List Code} {v : ValueId} {id : OperandId} {h : Host} {st : Storage}
  {r : Relocation} {size : UInt64} {k : InstId} {n : Nat} {img : Image}

/-! ## Points of a lowering -/

/-- Every state of the lowering of a function, for every calling convention. -/
theorem Reached.building (h : Reached env func s) : ∃ c, Building env s c := by
  induction h with
  | opened run =>
    obtain ⟨f, m, hf, hopen, rfl⟩ := runs_beginFunction run
    obtain ⟨c, hsettled, hm, -⟩ := settled_of_beginFunction run
    cases hsettled.current
    exact ⟨_, hsettled, hm.isOpen, ⟨by rw [hm.nextVReg]; exact Nat.zero_le _,
      by rw [hm.nextSlot]; exact Nat.zero_le _⟩, fun v id hv => (by cases hv),
      fun b id hb => (by cases hb), fun id hid => (by cases hid)⟩
  | entered before block run ih =>
    obtain ⟨c, hc⟩ := ih
    obtain ⟨hpath, -, -, hfind⟩ := blockFor_path block
    obtain ⟨d, hd⟩ := hc.path hpath
    obtain ⟨c', hc', -⟩ := enter_block hc.settled block run
    obtain rfl := runs_setInsertionBlock.mp run
    have hcurrent := hc'.current
    rw [hd.settled.current, Option.map_some] at hcurrent
    cases hcurrent
    refine ⟨_, hc', hd.isOpen, hd.counted, fun v id hv => (hd.bound v id hv).mono
      ⟨hc'.current, rfl, rfl, rfl, rfl, List.prefix_refl _, fun _ _ hb => hb⟩,
      hd.blocks, ?_⟩
    rintro _ ⟨⟩
    exact hd.blocks _ _ hfind
  | lowered before run ih =>
    obtain ⟨c, hc⟩ := ih
    obtain ⟨i, t, d, code, hi, hpath, hb, hd, -⟩ := lowerInst_lowers hc.settled run
    obtain ⟨e, he⟩ := hc.path hpath
    have hcurrent := hb.current.trans he.settled.current
    cases hd.current.symm.trans hcurrent
    exact ⟨d, hd, he.isOpen, he.counted, hb.bound he.settled.current hi run he.bound,
      hb.blocks ▸ he.blocks, he.insertion⟩
  | resolved before run ih =>
    obtain ⟨c, hc⟩ := ih
    exact hc.path (resolve_path run).1
  | laidOut before run ih =>
    obtain ⟨c, hc⟩ := ih
    obtain ⟨c', hc', -⟩ := leave_block hc.settled run
    obtain ⟨d, machine, hd, happend, rfl⟩ := runs_change.mp run
    obtain ⟨-, -, -, -, rfl⟩ := Machine.Function.appendBlock_eq_ok.mp happend
    cases hc.settled.current.symm.trans hd
    cases hc'.current
    exact ⟨_, hc', hc.isOpen, ⟨hc.counted.vregs, hc.counted.slots⟩,
      fun v id hv => (hc.bound v id hv).mono
      ⟨hc'.current, rfl, rfl, rfl, rfl, List.prefix_refl _, fun _ _ hb => hb⟩, hc.blocks,
      hc.insertion⟩

/-! ## Loaded data -/

/--
The image of a global lies at its symbol, with addresses in place of the relocated bytes.
-/
structure Loaded (h : Host) (img : Image) (memory : Memory) : Prop where
  bytes : ∀ (k : Nat) (b : UInt8), img.data[k]? = some b →
    (∀ r ∈ img.relocations, k < r.offset.toNat ∨ r.offset.toNat + 8 ≤ k) →
    memory (h.symbol img.name + BitVec.ofNat 64 k) = b.toBitVec
  addresses : ∀ r ∈ img.relocations,
    memory.load (h.symbol img.name + BitVec.ofNat 64 r.offset.toNat) 8 = h.symbol r.symbol

/-- What the writer of a global's data appended for a part of the initializer. -/
structure Stretch (env : Env) (g : IR.Global) (init : ValueId) (path : List Nat) (E : Ty)
    (e : ValueId) (img : Image) where
  start : Image
  before : Image
  after : Image
  bytes : List UInt8
  relocations : List Relocation
  empty : start.data = #[] ∧ start.relocations = []
  named : start.name = g.name
  writing : @Writing env.allocator env.module env.abi g.ty init start path E e before
  written : @appendConstant env.allocator env.module env.abi E e before = .ok after
  appended : before.Appended after bytes relocations
  kept : @Image.Grows env.allocator after img

/--
A word read from a stretch is what was emitted for it: byte for byte, or the address of
the symbol if a relocation stands there.
-/
def Emitted (h : Host) (offset : Nat) (bytes : List UInt8) (relocations : List Relocation)
    (x : BitVec 64) : Prop :=
  (relocations = [] → ∀ (j : Nat) (b : UInt8), bytes[j]? = some b →
    (x >>> (8 * j)).setWidth 8 = b.toBitVec) ∧
  ∀ r ∈ relocations, relocations = [r] ∧ r.offset.toNat = offset ∧ x = h.symbol r.symbol

namespace Stretch

variable {g : IR.Global} {init : ValueId} {path : List Nat} {E : Ty} {e : ValueId}
  {img : Image}

/-- Where the stretch starts. -/
def offset (p : Stretch env g init path E e img) : Nat := p.before.data.size

theorem held_start (p : Stretch env g init path E e img) :
    @Image.Held env.allocator p.start :=
  .inl (by rw [p.empty.1]; rfl)

theorem grows (p : Stretch env g init path E e img) :
    @Image.Grows env.allocator p.start p.before :=
  p.writing.grows p.held_start

/-- The finished image has the bytes of the stretch. -/
theorem data (p : Stretch env g init path E e img) {j : Nat} {b : UInt8}
    (hb : p.bytes[j]? = some b) : img.data[p.offset + j]? = some b := by
  obtain ⟨-, bytes, rs, hkept⟩ := p.kept
  have hlt := (List.getElem?_eq_some_iff.mp hb).1
  rw [offset, ← Array.length_toList, ← Array.getElem?_toList, hkept.data, p.appended.data,
    List.append_assoc, List.getElem?_append_right (Nat.le_add_right _ _),
    Nat.add_sub_cancel_left, List.getElem?_append_left hlt, hb]

/-- The other relocations of the finished image lie before or behind the stretch. -/
theorem relocations_clear (p : Stretch env g init path E e img)
    (hr : r ∈ img.relocations) :
    r ∈ p.relocations ∨ r.offset.toNat + 8 ≤ p.offset ∨
      p.offset + p.bytes.length ≤ r.offset.toNat := by
  obtain ⟨-, _, rs, hbefore⟩ := p.grows
  obtain ⟨-, _, rs', hkept⟩ := p.kept
  rw [hkept.relocations, p.appended.relocations, hbefore.relocations, p.empty.2,
    List.nil_append, List.mem_append, List.mem_append] at hr
  rcases hr with (hr | hr) | hr
  · exact .inr (.inl (hbefore.spread.within hr).2)
  · exact .inl hr
  · have := (hkept.spread.within hr).1
    rw [p.appended.size] at this
    exact .inr (.inr this)

/-- A relocation leaves no room for a second one within eight bytes. -/
theorem relocations_eq (p : Stretch env g init path E e img)
    (hsize : p.bytes.length ≤ 8) (hr : r ∈ p.relocations) :
    p.relocations = [r] ∧ r.offset.toNat = p.offset ∧ p.bytes.length = 8 := by
  have hspread := p.appended.spread
  have hlen := p.appended.size
  have hoffset : p.offset = p.before.data.size := rfl
  cases hrs : p.relocations with
  | nil =>
    rw [hrs] at hr
    cases hr
  | cons q rs =>
    rw [hrs] at hr hspread
    have hstart := hspread.1
    have hstop := hspread.2.le
    cases rs with
    | nil =>
      cases List.mem_singleton.mp hr
      exact ⟨rfl, by omega, by omega⟩
    | cons q' rs =>
      have hstart' := hspread.2.1
      have hstop' := hspread.2.2.le
      omega

theorem name_eq (p : Stretch env g init path E e img) : img.name = g.name := by
  obtain ⟨-, _, _, hbefore⟩ := p.grows
  obtain ⟨-, _, _, hkept⟩ := p.kept
  rw [hkept.name, p.appended.name, hbefore.name, p.named]

/--
A word with the low bytes that lie in memory at the stretch is what was emitted for it.
-/
theorem load {memory : Memory} {x : BitVec 64} (p : Stretch env g init path E e img)
    (hl : Loaded h img memory) (hsize : p.bytes.length ≤ 8)
    (hx : x.setWidth (8 * p.bytes.length) =
      (memory.load (h.symbol g.name + BitVec.ofNat 64 p.offset) p.bytes.length).setWidth
        (8 * p.bytes.length)) : Emitted h p.offset p.bytes p.relocations x := by
  refine ⟨fun hnone j b hb => ?_, fun r hr => ?_⟩
  · have hlt := (List.getElem?_eq_some_iff.mp hb).1
    have hbyte : memory (h.symbol g.name + BitVec.ofNat 64 p.offset + BitVec.ofNat 64 j) =
        b.toBitVec := by
      rw [BitVec.add_assoc, ← BitVec.ofNat_add, ← p.name_eq]
      refine hl.bytes _ b (p.data hb) fun r hr => ?_
      rcases p.relocations_clear hr with hr | hbehind | hbefore
      · rw [hnone] at hr
        cases hr
      · exact .inr (by omega)
      · exact .inl (by omega)
    apply BitVec.eq_of_getLsbD_eq
    intro i hi
    have hbit : x.getLsbD (8 * j + i) =
        (x.setWidth (8 * p.bytes.length)).getLsbD (8 * j + i) := by
      rw [BitVec.getLsbD_setWidth,
        decide_eq_true (show 8 * j + i < 8 * p.bytes.length by omega), Bool.true_and]
    rw [BitVec.getLsbD_setWidth, decide_eq_true hi, Bool.true_and,
      BitVec.getLsbD_ushiftRight, hbit, hx,
      BitVec.getLsbD_setWidth, Machine.Memory.getLsbD_load _ _ hsize,
      decide_eq_true (show 8 * j + i < 8 * p.bytes.length by omega), Bool.true_and,
      Bool.true_and,
      show (8 * j + i) / 8 = j by omega, show (8 * j + i) % 8 = i by omega, hbyte]
  · obtain ⟨hrs, hoffset, hlen⟩ := p.relocations_eq hsize hr
    refine ⟨hrs, hoffset, ?_⟩
    have hmem : r ∈ img.relocations := by
      obtain ⟨-, _, rs', hkept⟩ := p.kept
      rw [hkept.relocations, p.appended.relocations]
      exact List.mem_append_left _ (List.mem_append_right _ hr)
    rw [hlen, BitVec.setWidth_eq, BitVec.setWidth_eq, ← hoffset, ← p.name_eq,
      hl.addresses r hmem] at hx
    exact hx

end Stretch

theorem size_of_integerOfSize? (h : Storage.integerOfSize? size = some st) :
    st.size.toNat = size.toNat := by
  unfold Storage.integerOfSize? at h
  split_ifs at h with h1 h2 h4 h8 <;> cases h
  · rw [h1]; rfl
  · rw [h2]; rfl
  · rw [h4]; rfl
  · rw [h8]; rfl

/-- The class that a value is loaded through has the size of its type. -/
theorem size_of_byValueStorage {ty : Ty} {role : String}
    (hst : byValueStorage ty role = .ok st) (hsize : ty.size = .ok size) :
    st.size.toNat = size.toNat := by
  obtain ⟨st', hscalar, hst⟩ := bind_eq_ok.mp hst
  have hstorage := storageOf_of_scalarStorage hscalar
  cases ty with
  | struct name fields packed =>
    simp only [bind_eq_ok, ofWord_eq_ok] at hst
    obtain ⟨size', hsize', hst⟩ := hst
    cases hsize.symm.trans hsize'
    split at hst
    · next int hint =>
      cases pure_eq_ok.mp hst
      simp only [storageOf, bind_eq_ok, ofWord_eq_ok, pure_eq_ok] at hstorage
      obtain ⟨size', hsize', hstorage⟩ := hstorage
      cases hsize.symm.trans hsize'
      rw [hint, Option.getD_some] at hstorage
      subst hstorage
      exact size_of_integerOfSize? hint
    · cases hst
  | array element length => cases hstorage
  | function params ret variadic => cases hstorage
  | type => cases hstorage
  | int width | uint width =>
    cases pure_eq_ok.mp hst
    cases width <;> cases hstorage <;> cases hsize <;> rfl
  | void | bool | f32 | f64 | ptr pointee =>
    cases pure_eq_ok.mp hst
    cases hstorage
    cases hsize
    rfl

/-! ## Lowering an address and a load -/

/-- An instruction whose code is selected by a step that succeeds. -/
theorem lowerInst_of_yields {i : Inst} {x : LowerM OperandId}
    {Q : OperandId → State → List Code → Prop} (hm : env.module.Linked)
    (hi : env.module.inst k = .ok i) (hselect : selectInst k i = some <$> x)
    (hfresh : s.values.find? i.value = none) (hc : Receiving env s c)
    (hroom : s.size + n < 2 ^ 32) (hx : Yields env n s x Q) :
    ∃ id t code, Runs (lowerInst k) env s () (t.bound i.value (some id)) ∧
      Path env s t code ∧
      Q id t code := by
  obtain ⟨id, t, code, hrun, hpath, -, hq⟩ := hx c hc hroom
  have hunbound : t.values.find? i.value = none :=
    ((Follows.of_path hpath).find?_inst (value_of_inst hm hi)).trans hfresh
  refine ⟨id, t, code, runs_lowerInst_of hi ?_ (.inl hunbound), hpath, hq⟩
  rw [hselect]
  exact runs_map.mpr ⟨id, hrun, rfl⟩

/-- The operand of a value reads a word. -/
def Reads (s : State) (h : Host) (σ : Cpu) (v : ValueId) (x : BitVec 64) : Prop :=
  ∃ c id o, s.current = some c ∧ s.values.find? v = some id ∧
    c.machine.operand id = .ok o ∧
    h.read σ o = x

/--
Lowering went on from one state to another, and the code it appended, run in a machine
state as `P` says, falls through to one as `Q` says.
-/
def Executes (s s' : State) (P : Host → Cpu → Prop) (Q : Host → Cpu → Cpu → Prop) :
    Prop :=
  ∃ c insts code, s'.current = some c ∧ Gains s s' insts ∧
    c.machine.decode insts = some code ∧
    ∀ h σ, P h σ → ∃ τ, h.run code σ = some (.falls τ) ∧ Q h σ τ

theorem executes_of_path {P : Host → Cpu → Prop} {Q : Host → Cpu → Cpu → Prop}
    (hc : s.current = some c) (hpath : Path env s t code)
    (hcurrent : s'.current = t.current)
    (hrun : ∀ h σ, P h σ → ∃ τ, h.run code σ = some (.falls τ) ∧ Q h σ τ) :
    Executes s s' P Q := by
  obtain ⟨d, hd, -⟩ := hpath.grown hc
  obtain ⟨insts, hgains, hdecodes⟩ := hpath.gains hd
  exact ⟨d, insts, code, hcurrent.trans hd, hgains.of_current hcurrent,
    Machine.Function.decode_eq_some.mpr hdecodes, hrun⟩

theorem reads_bound {o : Operand} {σ : Cpu} (ho : t.Holds id o) :
    Reads (t.bound v (some id)) h σ v (h.read σ o) := by
  obtain ⟨c, hc, hget⟩ := ho
  exact ⟨c, id, o, hc, Bindings.find?_insert_self _ _ _, operand_eq_ok.mpr hget, rfl⟩

section

variable {gid : IR.GlobalId} {g : IR.Global} {init e : ValueId} {path : List Nat} {E : Ty}
  {t' : State}

/-- The data of an initialized global is its initializer's. -/
theorem appendConstant_of_imageOf {alloc : Machine.Allocator} {m : IR.Module}
    {abi : Abi} (hinit : g.initializer = some init) (h : imageOf m abi g = .ok img) :
    ∃ align, appendConstant m abi g.ty init (Image.empty g.name align) = .ok img := by
  unfold imageOf at h
  rw [hinit] at h
  cases halign : g.alignment with
  | some align =>
    rw [halign] at h
    exact ⟨align, h⟩
  | none =>
    rw [halign] at h
    obtain ⟨align, -, h⟩ := bind_eq_ok.mp h
    exact ⟨align, h⟩

/-- Every part of an initializer that was emitted has its stretch. -/
theorem exists_stretch (hg : env.module.global gid = .ok g)
    (hinit : g.initializer = some init) (hemit : Runs (lowerGlobal gid) env t () t')
    (hpart : env.module.HasPart g.ty init path E e) :
    ∃ img size, t'.output = t.output.pushGlobal img ∧ g.ty.size = .ok size ∧
      Nonempty (Stretch env g init path E e img) := by
  obtain ⟨g', img, hg', himg, -, rfl⟩ := runs_lowerGlobal.mp hemit
  cases hg.symm.trans hg'
  obtain ⟨align, himg⟩ := appendConstant_of_imageOf hinit himg
  have hsmall := @Image.held_empty env.allocator g.name align
  obtain ⟨-, size, hsize, -⟩ := appendConstant_fills hsmall himg
  obtain ⟨before, after, hwriting, hwritten, hkept⟩ :=
    writing_of_hasPart hpart hsmall himg
  obtain ⟨hbefore, -⟩ := hwriting.grows hsmall
  obtain ⟨⟨-, bytes, rs, happended⟩, -⟩ := appendConstant_fills hbefore hwritten
  exact ⟨img, size, rfl, hsize,
    ⟨⟨_, before, after, bytes, rs, ⟨rfl, rfl⟩, rfl, hwriting, hwritten, happended,
      hkept⟩⟩⟩

/-- The value of a global is a pointer to its type. -/
theorem value_of_global (hm : env.module.Linked) (hg : env.module.global gid = .ok g) :
    env.module.value g.value = .ok ⟨.ptr g.ty, .global gid⟩ := by
  have hvalue := hm.globals _ _ (IR.Module.global_eq_ok.mp hg)
  rw [UInt32.ofNat_toNat] at hvalue
  exact IR.Module.value_eq_ok.mpr hvalue

/--
A load through a pointer, at a point of the lowering of a function where there is room for
it.
-/
structure LoadAt (env : Env) (func : IR.FuncId) (u : State) (pointer : ValueId) (ty : Ty)
    (k : InstId) (l : Inst) (st : Storage) : Prop where
  reached : Reached env func u
  receives : ∃ d b, u.current = some d ∧ d.block = some b
  inst : env.module.inst k = .ok l
  opcode : l.opcode = .load
  operands : l.operands = [pointer]
  result : l.ty = ty
  storage : byValueStorage ty "load" = .ok st
  fresh : u.values.find? l.value = none
  room : u.size + 2 < 2 ^ 32

/--
A load through a register with the address of a stretch reads what was emitted for it.
-/
theorem LoadAt.emitted {u : State} {pointer : ValueId} {l : Inst} {r : VReg}
    (hl : LoadAt env func u pointer E k l st) (hmemory : env.allocator.Ample)
    (hm : env.module.Linked) (p : Stretch env g init path E e img)
    (hbound : u.values.find? pointer = some id) (hid : u.Holds id ⟨.virt r, .ptr⟩) :
    st.size.toNat = p.bytes.length ∧ ∃ u', Runs (lowerInst k) env u () u' ∧
      Executes u u'
        (fun h σ => Reads u h σ pointer (h.symbol g.name + BitVec.ofNat 64 p.offset) ∧
          Loaded h img σ.memory)
        fun h σ τ => τ.memory = σ.memory ∧
          ∃ x, Reads u' h τ l.value x ∧ Emitted h p.offset p.bytes p.relocations x := by
  obtain ⟨d, b, hd, hb⟩ := hl.receives
  obtain ⟨d', hbuilding⟩ := hl.reached.building
  cases hd.symm.trans hbuilding.settled.current
  obtain ⟨hbefore, -⟩ := p.grows
  obtain ⟨-, size, hsize, hlen⟩ := appendConstant_fills hbefore p.written
  have hst : st.size.toNat = p.bytes.length := by
    have := p.appended.size
    rw [size_of_byValueStorage hl.storage hsize]
    omega
  have hwidth : st.width = 8 * p.bytes.length := by rw [st.width_eq, hst]
  have hle : p.bytes.length ≤ 8 := by
    have := st.width_le
    omega
  have hselect : selectInst k l = some <$> lowerLoad l := by rw [selectInst, hl.opcode]
  obtain ⟨id', t, code, hrun, hpath, dst, hdst, rfl⟩ :=
    lowerInst_of_yields hm hl.inst hselect hl.fresh
    (hbuilding.receiving hb) hl.room
    (lowerLoad_yields hmemory hl.operands (hl.result ▸ hl.storage) hbound hid)
  refine ⟨hst, _, hrun, executes_of_path hd hpath rfl fun h σ hσ => ?_⟩
  obtain ⟨⟨c, id2, o, hc, hid2, ho, hread⟩, hloaded⟩ := hσ
  cases hbound.symm.trans hid2
  cases hid.unique ⟨c, hc, operand_eq_ok.mp ho⟩
  have hload : h.run [⟨.mov, [⟨.virt dst, st⟩, ⟨.mem (.ofBase (.virt r)), st⟩]⟩] σ =
      some (.falls
        (h.write σ ⟨.virt dst, st⟩ (h.read σ ⟨.mem (.ofBase (.virt r)), st⟩))) :=
    Machine.Host.run_singleton.trans rfl
  refine ⟨_, hload, rfl, _, reads_bound hdst, p.load hloaded hle ?_⟩
  rw [← hwidth, ← hst]
  refine (Machine.read_write_virt dst st _).trans ?_
  have haddress : σ.address (.ofBase (.virt r)) =
      h.symbol g.name + BitVec.ofNat 64 p.offset := by
    rw [← hread]
    simp [Cpu.address, Cpu.reg, Machine.Address.ofBase, Host.read]
  rw [← haddress]
  rfl

/--
The code of an element address and the data of a global agree. Take a global whose data
was emitted, and indices that lead, from zero on, through the aggregates of its
initializer to an element. At whatever point of the lowering of a function, the element
address lowers, and its code adds to the address of the symbol the offset at which the
writer of the data has put the element. Wherever the address is used later on, a load of
the element's type reads what was emitted for the element: its bytes, or the address of
the symbol that it was relocated to.
-/
theorem element_reads_initializer {k : InstId} {i : Inst} {indices : List ValueId}
    {b : Machine.BlockId} (hmemory : env.allocator.Ample) (hm : env.module.Linked)
    (hg : env.module.global gid = .ok g) (hinit : g.initializer = some init)
    (hemit : Runs (lowerGlobal gid) env t () t')
    (hpart : env.module.HasPart g.ty init path E e) (hs : Reached env func s)
    (hc : s.current = some c) (hb : c.block = some b) (hi : env.module.inst k = .ok i)
    (hop : i.opcode = .gep) (hops : i.operands = g.value :: indices)
    (hindices : List.Forall₂ (Selects env.module) indices (0 :: path))
    (hfresh : s.values.find? i.value = none)
    (hroom : s.size + (4 + 6 * indices.length) < 2 ^ 32) :
    ∃ img, t'.output = t.output.pushGlobal img ∧
      ∃ (p : Stretch env g init path E e img) (s₁ : State),
        Runs (lowerInst k) env s () s₁ ∧
        Executes s s₁ (fun _ _ => True) (fun h σ τ => τ.memory = σ.memory ∧
          Reads s₁ h τ i.value (h.symbol g.name + BitVec.ofNat 64 p.offset)) ∧
        ∀ u k' l st, Carried s₁ u → LoadAt env func u i.value E k' l st →
          st.size.toNat = p.bytes.length ∧ ∃ u', Runs (lowerInst k') env u () u' ∧
            Executes u u'
              (fun h σ => Reads u h σ i.value
                (h.symbol g.name + BitVec.ofNat 64 p.offset) ∧
                Loaded h img σ.memory)
              fun h σ τ => τ.memory = σ.memory ∧
                ∃ x, Reads u' h τ l.value x ∧
                  Emitted h p.offset p.bytes p.relocations x := by
  obtain ⟨img, size, houtput, hsize, ⟨p⟩⟩ := exists_stretch hg hinit hemit hpart
  obtain ⟨c', hbuilding⟩ := hs.building
  cases hc.symm.trans hbuilding.settled.current
  have hv := value_of_global hm hg
  obtain ⟨zero, rest, hzero, hrest, rfl⟩ := List.forall₂_cons_right_iff.mp hindices
  have hselect : selectInst k i = some <$> lowerGep i := by rw [selectInst, hop]
  obtain ⟨id, t₁, code, hrun, hpath, r, hr, hcode⟩ :=
    lowerInst_of_yields hm hi hselect hfresh
    (hbuilding.receiving hb) (n := 10 + 6 * rest.length)
    (by rw [List.length_cons] at hroom; omega)
    (lowerGep_yields hmemory hm hops hv hg hzero hrest hsize p.held_start p.writing)
  refine ⟨img, houtput, p, _, hrun, executes_of_path hc hpath rfl fun h σ _ => ?_,
    fun u k' l st hcarried hl => ?_⟩
  · obtain ⟨τ, hτ, hmemory, haddress⟩ := hcode h σ
    refine ⟨τ, hτ, hmemory, ?_⟩
    have hstart : p.start.data.size = 0 := by rw [p.empty.1]; rfl
    rw [hstart, Nat.sub_zero] at haddress
    have hreads := reads_bound (v := i.value) (h := h) (σ := τ) hr
    rwa [show h.read τ ⟨.virt r, .ptr⟩ = τ.virt r from rfl, haddress] at hreads
  · obtain ⟨d, hd, hget⟩ := hr
    obtain ⟨d', hd', hprefix⟩ := hcarried.current d hd
    exact hl.emitted hmemory hm p (hcarried.values _ _ (Bindings.find?_insert_self _ _ _))
      ⟨d', hd', Machine.Function.getElem?_of_prefix hprefix hget⟩

end

/-- Whether an instruction for a value can be lowered here, with room for `n` operands. -/
def State.awaits (s : State) (v : ValueId) (n : Nat) : Bool :=
  s.values.find? v = none && s.size + n < 2 ^ 32 && s.current.any fun c => c.block.isSome

theorem State.awaits_iff : s.awaits v n = true ↔
    s.values.find? v = none ∧ s.size + n < 2 ^ 32 ∧ ∃ c b, s.current = some c ∧
      c.block = some b := by
  simp only [awaits, Bool.and_eq_true, decide_eq_true_eq, Option.any_eq_true,
    Option.isSome_iff_exists, and_assoc]
  refine and_congr_right fun _ => and_congr_right fun _ => exists_congr fun c => ?_
  rw [exists_and_left]

/-- A number and a pointer, with six bytes of padding between them. -/
def entryTy : Ty := .struct none [.int .w16, .ptr (.int .w8)] false

/-- A byte, seven bytes of padding and two entries. -/
def tableTy : Ty := .struct none [.int .w8, .array entryTy 2] false

/--
A table whose entries point to another global, and a function that loads the second
pointer.
-/
def entryTable : IR.Module where
  name := "m"
  values := #[⟨.int .w8, .constant (.int 7)⟩, ⟨.int .w16, .constant (.int 300)⟩,
    ⟨.ptr (.int .w8), .global ⟨0⟩⟩, ⟨entryTy, .constant (.aggregate [⟨1⟩, ⟨2⟩])⟩,
    ⟨.array entryTy 2, .constant (.aggregate [⟨3⟩, ⟨3⟩])⟩,
    ⟨tableTy, .constant (.aggregate [⟨0⟩, ⟨4⟩])⟩, ⟨.ptr tableTy, .global ⟨1⟩⟩,
    ⟨.int .w64, .constant (.int 0)⟩, ⟨.int .w32, .constant (.int 1)⟩,
    ⟨.ptr (.function [] (.ptr (.int .w8)) false), .function ⟨0⟩⟩, ⟨.void, .block ⟨0⟩⟩,
    ⟨.ptr (.ptr (.int .w8)), .instruction ⟨0⟩⟩, ⟨.ptr (.int .w8), .instruction ⟨1⟩⟩]
  insts := #[⟨.gep, [⟨6⟩, ⟨7⟩, ⟨8⟩, ⟨8⟩, ⟨8⟩], .ptr (.ptr (.int .w8)), ⟨0⟩, ⟨11⟩⟩,
    ⟨.load, [⟨11⟩], .ptr (.int .w8), ⟨0⟩, ⟨12⟩⟩]
  blocks := #[⟨⟨0⟩, none, [⟨0⟩, ⟨1⟩], ⟨10⟩⟩]
  functions := #[⟨"f", ⟨[], .ptr (.int .w8), false⟩, [], [⟨0⟩], false, ⟨9⟩⟩]
  globals := #[⟨"target", .int .w8, some ⟨0⟩, none, ⟨2⟩⟩,
    ⟨"table", tableTy, some ⟨5⟩, none, ⟨6⟩⟩]

theorem built_entryTable : IR.Built entryTable := by
  have h := (IR.Built.empty "m").constant (.int .w8) (.int 7)
  have h := h.constant (.int .w16) (.int 300)
  have h := h.addGlobal "target" (.int .w8) (some ⟨0⟩)
  have h := h.constant entryTy (.aggregate [⟨1⟩, ⟨2⟩])
  have h := h.constant (.array entryTy 2) (.aggregate [⟨3⟩, ⟨3⟩])
  have h := h.constant tableTy (.aggregate [⟨0⟩, ⟨4⟩])
  have h := h.addGlobal "table" tableTy (some ⟨5⟩)
  have h := h.constant (.int .w64) (.int 0)
  have h := h.constant (.int .w32) (.int 1)
  have h := h.addFunction "f" ⟨[], .ptr (.int .w8), false⟩ false
  have h := h.block ⟨0⟩ none rfl
  have h := h.inst ⟨0⟩ .gep [⟨6⟩, ⟨7⟩, ⟨8⟩, ⟨8⟩, ⟨8⟩] (.ptr (.ptr (.int .w8))) rfl
  have h := h.inst ⟨0⟩ .load [⟨11⟩] (.ptr (.int .w8)) rfl
  exact h

theorem hasPart_entryTable :
    entryTable.HasPart tableTy ⟨5⟩ [1, 1, 1] (.ptr (.int .w8)) ⟨2⟩ :=
  .member rfl rfl rfl rfl (.element rfl rfl rfl (.member rfl rfl rfl rfl (.here _ _)))

/-- The image of the table: the pointers of its entries are relocated. -/
def tableImage : Image where
  name := "table"
  align := 8
  data := #[7, 0, 0, 0, 0, 0, 0, 0, 44, 1, 0, 0, 0, 0, 0, 0, 0, 0, 0, 0, 0, 0, 0, 0,
    44, 1, 0, 0, 0, 0, 0, 0, 0, 0, 0, 0, 0, 0, 0, 0]
  relocations := [⟨16, "target"⟩, ⟨32, "target"⟩]

/-- The table at zero and its target at 8192. -/
theorem loaded_tableImage (htable : h.symbol "table" = 0)
    (htarget : h.symbol "target" = 8192) :
    Loaded h tableImage
      (fun a => if a = 17 ∨ a = 33 then 32
        else (tableImage.data[a.toNat]?.getD 0).toBitVec) := by
  have hbytes : ∀ k < 40,
      (∀ r ∈ tableImage.relocations, k < r.offset.toNat ∨ r.offset.toNat + 8 ≤ k) →
      (if (0 : BitVec 64) + BitVec.ofNat 64 k = 17 ∨
          (0 : BitVec 64) + BitVec.ofNat 64 k = 33 then 32
        else (tableImage.data[
          ((0 : BitVec 64) + BitVec.ofNat 64 k).toNat]?.getD 0).toBitVec) =
      (tableImage.data[k]?.getD 0).toBitVec := by decide +kernel
  refine ⟨fun k b hb hclear => ?_, fun r hr => ?_⟩
  · have hk : k < 40 := (Array.getElem?_eq_some_iff.mp hb).1
    have h := hbytes k hk hclear
    rw [hb] at h
    rw [show tableImage.name = "table" from rfl, htable]
    exact h
  · rw [show tableImage.name = "table" from rfl, htable]
    simp only [tableImage, List.mem_cons, List.not_mem_nil, or_false] at hr
    rcases hr with rfl | rfl
    · exact (show _ = (8192 : BitVec 64) by decide +kernel).trans htarget.symm
    · exact (show _ = (8192 : BitVec 64) by decide +kernel).trans htarget.symm

/--
The pointer of the second entry is read through its relocation, 32 bytes into the table.
-/
theorem entryPointer_reads_initializer :
    ∃ t' s s₁ u', ∃ p :
    Stretch ⟨entryTable, .win64⟩ ⟨"table", tableTy, some ⟨5⟩, none, ⟨6⟩⟩ ⟨5⟩
        [1, 1, 1] (.ptr (.int .w8)) ⟨2⟩ tableImage,
      Runs (lowerGlobal ⟨1⟩) ⟨entryTable, .win64⟩ (.initial "m") () t' ∧
      Reached ⟨entryTable, .win64⟩ ⟨0⟩ s ∧
        Runs (lowerInst ⟨0⟩) ⟨entryTable, .win64⟩ s () s₁ ∧
      Executes s s₁ (fun _ _ => True) (fun h σ τ => τ.memory = σ.memory ∧
        Reads s₁ h τ ⟨11⟩ (h.symbol "table" + BitVec.ofNat 64 p.offset)) ∧
      Runs (lowerInst ⟨1⟩) ⟨entryTable, .win64⟩ s₁ () u' ∧
      Executes s₁ u'
        (fun h σ => Reads s₁ h σ ⟨11⟩ (h.symbol "table" + BitVec.ofNat 64 p.offset) ∧
          Loaded h tableImage σ.memory)
        (fun h σ τ => τ.memory = σ.memory ∧
          ∃ x, Reads u' h τ ⟨12⟩ x ∧ Emitted h p.offset p.bytes p.relocations x) ∧
      ∀ h : Host, h.symbol "table" = 0 → h.symbol "target" = 8192 →
        ∃ memory, Loaded h tableImage memory := by
  obtain ⟨_, t', hemit, hglobals⟩ := runs_of_leaves (s := .initial "m")
    (show leaves (lowerGlobal ⟨1⟩) ⟨entryTable, .win64⟩ _
      (fun _ s => s.output.globals = [tableImage]) = true by decide +kernel)
  obtain ⟨_, s₁, h₁, r₁⟩ := runs_of_leaves (s := .initial "m")
    (show leaves (beginFunction ⟨0⟩) ⟨entryTable, .win64⟩ _ (fun _ s =>
      leaves (blockFor ⟨0⟩) ⟨entryTable, .win64⟩ s fun b s =>
      leaves (setInsertionBlock b) ⟨entryTable, .win64⟩ s fun _ s =>
      s.awaits ⟨11⟩ 100 && leaves (lowerInst ⟨0⟩) ⟨entryTable, .win64⟩ s fun _ s =>
      s.awaits ⟨12⟩ 2) = true by decide +kernel)
  obtain ⟨b, s₂, h₂, r₂⟩ := runs_of_leaves r₁
  obtain ⟨_, s, h₃, r₃⟩ := runs_of_leaves r₂
  rw [Bool.and_eq_true] at r₃
  obtain ⟨_, s₄, h₄, r₄⟩ := runs_of_leaves r₃.2
  obtain ⟨hfresh, hroom, c, b, hc, hb⟩ := State.awaits_iff.mp r₃.1
  obtain ⟨hfresh', hroom', hreceives⟩ := State.awaits_iff.mp r₄
  have hs := (Reached.opened h₁).entered h₂ h₃
  obtain ⟨img, himg, p, s', hrun, hexec, hload⟩ := element_reads_initializer
    (k := ⟨0⟩) Machine.Allocator.host_ample (built_entryTable.linked (by decide)) rfl
    rfl hemit hasPart_entryTable hs hc hb rfl rfl rfl
    (.cons ⟨0, rfl, rfl⟩
      (.cons ⟨1, rfl, rfl⟩ (.cons ⟨1, rfl, rfl⟩ (.cons ⟨1, rfl, rfl⟩ .nil)))) hfresh
    (Nat.lt_of_le_of_lt (by simp) hroom)
  obtain ⟨-, rfl⟩ := h₄.unique hrun
  rw [himg, decide_eq_true_eq] at hglobals
  cases hglobals
  obtain ⟨-, u', hrun', hexec'⟩ := hload s₄ ⟨1⟩ _ .ptr (.refl s₄)
    ⟨hs.lowered hrun, hreceives, rfl, rfl, rfl, rfl, rfl, hfresh', hroom'⟩
  exact ⟨t', s, s₄, u', p, hemit, hs, hrun, hexec, hrun', hexec',
    fun _ htable htarget => ⟨_, loaded_tableImage htable htarget⟩⟩

end InstSelect.Lowering
