import Mathlib.Data.List.Forall2
import InstSelect.Proofs.DataImages

/-!
# What a data image contains

An initializer is walked along the type of its global: aggregates are taken apart, and
every other value is a leaf. A leaf has an offset, bytes of its own and, if it is a
function or a global, a symbol; all that is not part of a leaf is padding. `leavesAt`
lists the leaves in the order of the walk, with the offsets that the layout gives them. It
follows the type, so it is defined also where constants contain each other.

`Renders` says that bytes and relocations are those of a list of leaves, with zeros
everywhere else. It is closed under appending, so what the writer does for a leaf gives
what it does for nested aggregates.
-/

namespace InstSelect.IR

/-- A value that is written as a whole, as a type and from an offset on. -/
structure Leaf where
  offset : Nat
  ty : Ty
  value : ValueId

namespace Module

mutual

/--
The leaves of a value that is written as a type from an offset on, in the order of the
walk.
-/
def leavesAt (m : Module) : Ty → ValueId → Nat → List Leaf
  | .struct name fields packed, v, start =>
    match m.value v, Ty.structLayout packed fields with
    | .ok ⟨_, .constant (.aggregate elements)⟩, .ok layout =>
      m.memberLeaves start fields elements layout.offsets
    | _, _ => [⟨start, .struct name fields packed, v⟩]
  | .array element length, v, start =>
    match m.value v, element.size with
    | .ok ⟨_, .constant (.aggregate elements)⟩, .ok stride =>
      elements.zipIdx.flatMap fun (entry : ValueId × Nat) =>
        m.leavesAt element entry.1 (start + stride.toNat * entry.2)
    | _, _ => [⟨start, .array element length, v⟩]
  | ty, v, start => [⟨start, ty, v⟩]

/-- The leaves of the members of a struct that begins at `start`. -/
def memberLeaves (m : Module) (start : Nat) :
    List Ty → List ValueId → List UInt64 → List Leaf
  | field :: fields, element :: elements, offset :: offsets =>
    m.leavesAt field element (start + offset.toNat) ++
      m.memberLeaves start fields elements offsets
  | _, _, _ => []

end

/-- The leaves of a global's initial data. -/
def initialLeaves (m : Module) (g : Global) : List Leaf :=
  match g.initializer with
  | some init => m.leavesAt g.ty init 0
  | none => []

/-- The bytes of a leaf, without padding; those of an address are left to the linker. -/
def leafBytes (m : Module) (l : Leaf) : List UInt8 :=
  match m.value l.value with
  | .ok ⟨_, .constant (.int n)⟩ =>
    match l.ty.size with
    | .ok size => Word.bytesLE n.toUInt64 (min size.toNat 8)
    | .error _ => []
  | .ok ⟨_, .constant (.float x)⟩ =>
    match l.ty with
    | .f32 => Word.bytesLE x.toBinary32.toUInt64 4
    | _ => Word.bytesLE x.bits 8
  | .ok ⟨_, .constant (.bytes data)⟩ => data
  | .ok ⟨_, .function _⟩ | .ok ⟨_, .global _⟩ => List.replicate 8 0
  | _ => []

/-- Functions and globals stand for their address. -/
def isReference (m : Module) (l : Leaf) : Bool :=
  match m.value l.value with
  | .ok ⟨_, .function _⟩ | .ok ⟨_, .global _⟩ => true
  | _ => false

/-- The symbol whose address a value is. -/
inductive Names (m : Module) (abi : Abi) (v : ValueId) : String → Prop
  | function {ty : Ty} {id : FuncId} {f : Function} {symbol : String}
      (value : m.value v = .ok ⟨ty, .function id⟩) (function : m.function id = .ok f)
      (name : abi.symbolName f.name = .ok symbol) : Names m abi v symbol
  | global {ty : Ty} {id : GlobalId} {g : Global}
      (value : m.value v = .ok ⟨ty, .global id⟩) (global : m.global id = .ok g) :
      Names m abi v g.name

/-- A relocation for a leaf: at its place, to its symbol. -/
def Relocates (m : Module) (abi : Abi) (r : Machine.Relocation) (l : Leaf) : Prop :=
  r.offset.toNat = l.offset ∧ m.Names abi l.value r.symbol

end Module

end InstSelect.IR

namespace InstSelect.Lowering

open IR (ValueId Ty)
open Machine (Image Relocation)

variable {alloc : Machine.Allocator} {m : IR.Module} {abi : Abi} {i j k : Image}
  {ty element : Ty} {v : ValueId} {size start stop stride : UInt64} {l : IR.Leaf}
  {n : Nat} {r : UInt64 × Image} {bytes : List UInt8} {symbol : String}
  {data : IR.Value} {elements : List ValueId}

/--
The bytes and relocations from `start` on are those of some leaves, and zero elsewhere.
-/
structure Renders (m : IR.Module) (abi : Abi) (start : Nat) (leaves : List IR.Leaf)
    (bytes : List UInt8) (rs : List Relocation) : Prop where
  references : List.Forall₂ (m.Relocates abi) rs (leaves.filter m.isReference)
  shown : ∀ l ∈ leaves, start ≤ l.offset ∧
    ∀ n b, (m.leafBytes l)[n]? = some b → bytes[l.offset - start + n]? = some b
  padding : ∀ n b, bytes[n]? = some b → b ≠ 0 →
    ∃ l ∈ leaves, ∃ n', start + n = l.offset + n' ∧ (m.leafBytes l)[n']? = some b

namespace Renders

variable {a count : Nat} {leaves leaves' : List IR.Leaf} {bytes bytes' : List UInt8}
  {rs rs' : List Relocation}

/-- Zeros have no leaves. -/
theorem zeros (m : IR.Module) (abi : Abi) (a count : Nat) :
    Renders m abi a [] (List.replicate count 0) [] where
  references := .nil
  shown _ hl := nomatch hl
  padding n b hb hne := by
    rw [List.getElem?_replicate] at hb
    split at hb
    · cases hb
      exact absurd rfl hne
    · cases hb

/-- What follows has leaves of its own. -/
theorem append (h : Renders m abi a leaves bytes rs)
    (h' : Renders m abi (a + bytes.length) leaves' bytes' rs') :
    Renders m abi a (leaves ++ leaves') (bytes ++ bytes') (rs ++ rs') where
  references := by
    rw [List.filter_append]
    exact List.rel_append h.references h'.references
  shown l hl := by
    rcases List.mem_append.mp hl with hl | hl
    · obtain ⟨hle, hshown⟩ := h.shown l hl
      refine ⟨hle, fun n b hb => ?_⟩
      have hb' := hshown n b hb
      rw [List.getElem?_append_left (List.getElem?_eq_some_iff.mp hb').1]
      exact hb'
    · obtain ⟨hle, hshown⟩ := h'.shown l hl
      refine ⟨by omega, fun n b hb => ?_⟩
      rw [List.getElem?_append_right (by omega), ← hshown n b hb]
      congr 1
      omega
  padding n b hb hne := by
    rcases Nat.lt_or_ge n bytes.length with hlt | hge
    · rw [List.getElem?_append_left hlt] at hb
      obtain ⟨l, hl, n', hn, hb'⟩ := h.padding n b hb hne
      exact ⟨l, List.mem_append_left _ hl, n', hn, hb'⟩
    · rw [List.getElem?_append_right hge] at hb
      obtain ⟨l, hl, n', hn, hb'⟩ := h'.padding _ b hb hne
      exact ⟨l, List.mem_append_right _ hl, n', by omega, hb'⟩

theorem append_zeros (h : Renders m abi a leaves bytes rs) (count : Nat) :
    Renders m abi a leaves (bytes ++ List.replicate count 0) rs := by
  simpa using h.append (zeros m abi _ count)

/-- One leaf, right from the start. -/
theorem leaf (hbytes : m.leafBytes l = bytes)
    (hrs : List.Forall₂ (m.Relocates abi) rs ([l].filter m.isReference)) :
    Renders m abi l.offset [l] bytes rs where
  references := hrs
  shown l' hl := by
    cases List.mem_singleton.mp hl
    refine ⟨Nat.le_refl _, fun n b hb => ?_⟩
    rw [Nat.sub_self, Nat.zero_add, ← hbytes]
    exact hb
  padding n b hb _ := ⟨l, List.mem_singleton_self l, n, rfl, hbytes ▸ hb⟩

end Renders

/-- An image that grew by leaves and zeros. -/
def Draws (m : IR.Module) (abi : Abi) (leaves : List IR.Leaf) (i j : Image) : Prop :=
  ∃ bytes rs, i.Appended j bytes rs ∧ Renders m abi i.data.size leaves bytes rs

namespace Draws

variable {leaves leaves' : List IR.Leaf}

theorem trans (h : Draws m abi leaves i j) (h' : Draws m abi leaves' j k) :
    Draws m abi (leaves ++ leaves') i k := by
  obtain ⟨bytes, rs, happended, hrenders⟩ := h
  obtain ⟨bytes', rs', happended', hrenders'⟩ := h'
  rw [happended.size] at hrenders'
  exact ⟨_, _, happended.trans happended', hrenders.append hrenders'⟩

theorem trans_padding (h : Draws m abi leaves i j) (h' : Draws m abi [] j k) :
    Draws m abi leaves i k := by
  simpa using h.trans h'

theorem padding_trans (h : Draws m abi [] i j) (h' : Draws m abi leaves j k) :
    Draws m abi leaves i k :=
  h.trans h'

theorem of_zeros (count : Nat) (h : i.Appended j (List.replicate count 0) []) :
    Draws m abi [] i j :=
  ⟨_, _, h, .zeros m abi _ count⟩

theorem refl : Draws m abi [] i i :=
  of_zeros 0 ⟨rfl, (List.append_nil _).symm, (List.append_nil _).symm, Nat.le_refl _⟩

end Draws

/-! ## Padding and leaves -/

theorem appendZeros_appended {count : UInt64} (h : i.appendZeros count = .ok r) :
    i.Appended r.2 (List.replicate count.toNat 0) [] := by
  simp only [Image.appendZeros, bind_eq_ok, pure_eq_ok] at h
  obtain ⟨-, -, rfl⟩ := h
  exact Image.appended_of_data (by simp)

theorem appendData_appended (h : i.appendData bytes = .ok r) :
    i.Appended r.2 bytes [] := by
  simp only [Image.appendData, bind_eq_ok, pure_eq_ok] at h
  obtain ⟨-, -, rfl⟩ := h
  exact Image.appended_of_data (by simp)

theorem padTo_draws (h : padTo i stop = .ok j) : Draws m abi [] i j := by
  simp only [padTo, bind_eq_ok] at h
  obtain ⟨-, -, h⟩ := h
  split at h
  · simp only [bind_eq_ok, pure_eq_ok] at h
    obtain ⟨r, hr, rfl⟩ := h
    exact .of_zeros _ (appendZeros_appended hr)
  · cases pure_eq_ok.mp h
    exact .refl

theorem padFrom_draws (h : padFrom start size i = .ok j) : Draws m abi [] i j := by
  obtain ⟨stop, -, h⟩ := bind_eq_ok.mp h
  exact padTo_draws h

/-- An address is eight zero bytes and a relocation. -/
theorem appendPointer_appended (hi : i.Held) (h : appendPointer i symbol = .ok j) :
    i.Appended j (List.replicate 8 0) [⟨i.size, symbol⟩] := by
  simp only [appendPointer, Image.addRelocation, bind_eq_ok, pure_eq_ok] at h
  obtain ⟨⟨offset, w⟩, hzeros, _, -, _, -, _, -, rfl⟩ := h
  obtain ⟨-, rfl, hsize, -⟩ := Image.appendZeros_eq_ok hi hzeros
  have happended := appendZeros_appended hzeros
  refine ⟨happended.name, happended.data, ?_, Nat.le_of_eq hi.toNat_size.symm, ?_⟩
  · have hrs := happended.relocations
    rw [List.append_nil] at hrs
    exact congrArg (· ++ _) hrs
  · show i.size.toNat + 8 ≤ w.data.size
    rw [hsize, hi.toNat_size]
    exact Nat.le_refl _

theorem draws_reference (hi : i.Held) (hl : l.offset = i.data.size)
    (hbytes : m.leafBytes l = List.replicate 8 0) (hreference : m.isReference l = true)
    (hnames : m.Names abi l.value symbol) (h : appendPointer i symbol = .ok j) :
    Draws m abi [l] i j := by
  refine ⟨_, _, appendPointer_appended hi h, hl ▸ .leaf hbytes ?_⟩
  rw [List.filter_cons_of_pos hreference, List.filter_nil]
  exact .cons ⟨hi.toNat_size.trans hl.symm, hnames⟩ .nil

theorem draws_plain (count : Nat) (hl : l.offset = i.data.size)
    (hbytes : m.leafBytes l = bytes) (hreference : m.isReference l = false)
    (h : i.Appended j (bytes ++ List.replicate count 0) []) : Draws m abi [l] i j := by
  refine ⟨_, _, h, hl ▸ (Renders.leaf hbytes ?_).append_zeros count⟩
  rw [List.filter_cons_of_neg (by simp [hreference]), List.filter_nil]
  exact .nil

/-- A leaf is written from the end of the image on. -/
theorem appendLeaf_draws (hi : i.Held) (hsize : ty.size = .ok size)
    (hv : m.value v = .ok data) (h : appendLeaf m abi i v ty size data.kind = .ok j) :
    Draws m abi [⟨i.data.size, ty, v⟩] i j := by
  obtain ⟨vty, kind⟩ := data
  have hzeros : m.leafBytes ⟨i.data.size, ty, v⟩ = [] →
    m.isReference ⟨i.data.size, ty, v⟩ = false →
      (do pure (← i.appendZeros size).2) = .ok j →
      Draws m abi [⟨i.data.size, ty, v⟩] i j := by
    intro hbytes hreference h
    simp only [bind_eq_ok, pure_eq_ok] at h
    obtain ⟨r, hr, rfl⟩ := h
    exact draws_plain _ rfl hbytes hreference (by simpa using appendZeros_appended hr)
  have hdata : ∀ {bytes : List UInt8}, m.leafBytes ⟨i.data.size, ty, v⟩ = bytes →
      m.isReference ⟨i.data.size, ty, v⟩ = false →
      (do pure (← i.appendData bytes).2) = .ok j →
      Draws m abi [⟨i.data.size, ty, v⟩] i j := by
    intro bytes hbytes hreference h
    simp only [bind_eq_ok, pure_eq_ok] at h
    obtain ⟨r, hr, rfl⟩ := h
    exact draws_plain 0 rfl hbytes hreference (by simpa using appendData_appended hr)
  cases kind with
  | constant c =>
    cases c with
    | null | zero =>
      exact hzeros (by simp [IR.Module.leafBytes, hv])
        (by simp [IR.Module.isReference, hv]) h
    | undef =>
      exact hzeros (by simp [IR.Module.leafBytes, hv])
        (by simp [IR.Module.isReference, hv]) h
    | int n =>
      exact hdata (by simp [IR.Module.leafBytes, hv, hsize])
        (by simp [IR.Module.isReference, hv]) h
    | float x =>
      cases ty <;>
        exact hdata (by simp [IR.Module.leafBytes, hv])
        (by simp [IR.Module.isReference, hv]) h
    | bytes data =>
      obtain ⟨-, -, h⟩ := bind_eq_ok.mp h
      exact hdata (by simp [IR.Module.leafBytes, hv])
        (by simp [IR.Module.isReference, hv]) h
    | aggregate elements => exact absurd h violate_ne_ok
  | function func =>
    obtain ⟨f, hf, h⟩ := bind_eq_ok.mp h
    obtain ⟨symbol, hsymbol, h⟩ := bind_eq_ok.mp h
    exact draws_reference hi rfl (by simp [IR.Module.leafBytes, hv])
      (by simp [IR.Module.isReference, hv]) (.function hv hf hsymbol) h
  | global global =>
    obtain ⟨g, hg, h⟩ := bind_eq_ok.mp h
    exact draws_reference hi rfl (by simp [IR.Module.leafBytes, hv])
      (by simp [IR.Module.isReference, hv]) (.global hv hg) h
  | _ => exact absurd h violate_ne_ok

/-! ## Whole constants -/

/-- The offset of an element, if all elements before it are in the image. -/
theorem elementStart_of_size (hi : i.Held)
    (hsize : i.data.size = start.toNat + stride.toNat * n)
    (h : elementStart start stride n = .ok stop) : stop.toNat = i.data.size := by
  simp only [elementStart, bind_eq_ok] at h
  obtain ⟨distance, hdistance, h⟩ := h
  rw [addU64_eq_ok h, mulU64_eq_ok hdistance, hsize]
  congr 1
  rcases Nat.eq_zero_or_pos stride.toNat with hzero | hpos
  · rw [hzero, Nat.zero_mul, Nat.zero_mul]
  · -- Elements that take room are fewer than the image has bytes.
    have hle := Nat.le_mul_of_pos_left n hpos
    have hlt : n < UInt64.size := by
      have := Image.maxSize_lt
      have := hi.le
      omega
    rw [UInt64.toNat_ofNat_of_lt' hlt]

/-- One more element, at the end of those before it. -/
theorem appendElement_size (hi : i.Held) (hstride : element.size = .ok stride)
    (hsize : i.data.size = start.toNat + stride.toNat * n)
    (h : appendElement m abi element start stride i (v, n) = .ok j) :
    ∃ padded, i.Grows padded ∧ padded.data.size = i.data.size ∧ Draws m abi [] i padded ∧
      appendConstant m abi element v padded = .ok j ∧ j.Held ∧
      j.data.size = start.toNat + stride.toNat * (n + 1) := by
  obtain ⟨offset, padded, hoffset, hpad, hj⟩ := appendElement_eq_ok.mp h
  obtain ⟨hgrows, hpadded⟩ := padTo_grows hi hpad
  rw [elementStart_of_size hi hsize hoffset] at hpadded
  obtain ⟨hfills, size, hsize', hend⟩ := appendConstant_fills hgrows.held hj
  cases hstride.symm.trans hsize'
  exact ⟨padded, hgrows, hpadded, padTo_draws hpad, hj, hfills.held,
    by rw [hend, hpadded, hsize, Nat.mul_succ, Nat.add_assoc]⟩

/-- Elements stand one after the other, with the size of their type between them. -/
theorem appendElements_size (hi : i.Held) (hstride : element.size = .ok stride)
    (hsize : i.data.size = start.toNat + stride.toNat * n)
    (h : (elements.zipIdx n).foldlM (appendElement m abi element start stride) i =
      .ok j) :
    j.data.size = start.toNat + stride.toNat * (n + elements.length) := by
  induction elements generalizing i n with
  | nil =>
    cases h
    exact hsize
  | cons v elements ih =>
    obtain ⟨k, hk, h⟩ := foldlM_cons_eq_ok.mp h
    obtain ⟨-, -, -, -, -, hsmall, hend⟩ := appendElement_size hi hstride hsize hk
    rw [ih hsmall hend h, List.length_cons]
    congr 2
    omega

/-- Elements one after the other, if writing one of them draws its leaves. -/
theorem appendElements_draws_of
    (hwrite : ∀ v i, i.Held → ∀ j, appendConstant m abi element v i = .ok j →
      Draws m abi (m.leavesAt element v i.data.size) i j) (hi : i.Held)
    (hstride : element.size = .ok stride)
    (hsize : i.data.size = start.toNat + stride.toNat * n)
    (h : (elements.zipIdx n).foldlM (appendElement m abi element start stride) i =
      .ok j) :
    Draws m abi ((elements.zipIdx n).flatMap fun (entry : ValueId × Nat) =>
      m.leavesAt element entry.1 (start.toNat + stride.toNat * entry.2)) i j := by
  induction elements generalizing i n with
  | nil =>
    cases h
    exact .refl
  | cons v elements ih =>
    obtain ⟨k, hk, h⟩ := foldlM_cons_eq_ok.mp h
    obtain ⟨padded, hgrows, hpadded, hdraws, hk, hsmall, hend⟩ :=
      appendElement_size hi hstride hsize hk
    have hfirst := hdraws.padding_trans (hwrite v padded hgrows.held k hk)
    rw [hpadded, hsize] at hfirst
    exact hfirst.trans (ih hsmall hend h)

theorem leavesAt_of_leaf {a : Nat} (hv : m.value v = .ok data)
    (hleaf : ∀ elements, data.kind ≠ .constant (.aggregate elements)) :
    m.leavesAt ty v a = [⟨a, ty, v⟩] := by
  obtain ⟨vty, kind⟩ := data
  cases ty with
  | struct name fields packed | array element length =>
    rw [IR.Module.leavesAt]
    split
    · next hv' _ =>
      cases hv.symm.trans hv'
      exact absurd rfl (hleaf _)
    · rfl
  | _ => rfl

/-- Writing a constant appends its leaves and zeros, and so does writing members. -/
theorem append_draws (alloc : Machine.Allocator) (m : IR.Module) (abi : Abi) :
    (∀ ty v i, i.Held → ∀ j, appendConstant m abi ty v i = .ok j →
      Draws m abi (m.leavesAt ty v i.data.size) i j) ∧
    ∀ start fields elements offsets i, i.Held → ∀ j,
      appendMembers m abi start fields elements offsets i = .ok j →
        Draws m abi (m.memberLeaves start.toNat fields elements offsets) i j := by
  have hleaf : ∀ {ty v} {i j k : Image} {size : UInt64} {data : IR.Value}, i.Held →
      ty.size = .ok size → m.value v = .ok data →
      appendLeaf m abi i v ty size data.kind = .ok k →
      padFrom i.size size k = .ok j → Draws m abi (m.leavesAt ty v i.data.size) i j := by
    intro ty v i j k size data hi hsize hv hk hpad
    rw [leavesAt_of_leaf hv fun elements hkind => appendLeaf_aggregate hkind hk]
    exact (appendLeaf_draws hi hsize hv hk).trans_padding (padFrom_draws hpad)
  apply appendConstant.mutual_induct
  case case1 =>
    intro name fields packed v i _ ih hi j h
    cases written_of_appendConstant h with
    | @members _ _ _ _ data _ _ _ _ value aggregate _ placed parts padded =>
      obtain ⟨vty, kind⟩ := data
      cases aggregate
      have hdraws := ih _ _ hi _ parts
      rw [hi.toNat_size] at hdraws
      rw [IR.Module.leavesAt, value, placed]
      exact hdraws.trans_padding (padFrom_draws padded)
    | leaf sized value leaf padded => exact hleaf hi sized value leaf padded
  case case2 =>
    intro element length v i ih hi j h
    cases written_of_appendConstant h with
    | @elements _ _ _ _ data _ _ _ value aggregate _ step parts padded =>
      obtain ⟨vty, kind⟩ := data
      cases aggregate
      have hdraws :=
        appendElements_draws_of (fun v i hi j h => ih (v, 0) i hi j h) hi step
        (by rw [hi.toNat_size, Nat.mul_zero, Nat.add_zero]) parts
      rw [hi.toNat_size] at hdraws
      rw [IR.Module.leavesAt, value, step]
      exact hdraws.trans_padding (padFrom_draws padded)
    | leaf sized value leaf padded => exact hleaf hi sized value leaf padded
  case case3 =>
    intro ty v i hstruct harray hi j h
    cases written_of_appendConstant h with
    | members => exact absurd rfl (hstruct _ _ _)
    | elements => exact absurd rfl (harray _ _)
    | leaf sized value leaf padded => exact hleaf hi sized value leaf padded
  case case4 =>
    intro start field fields element elements offset offsets i ihfirst ihrest hi j h
    obtain ⟨stop, padded, k, hstop, hpad, hk, hrest⟩ := appendMembers_cons.mp h
    obtain ⟨hpadded, hsize⟩ := padTo_grows hi hpad
    have hfirst := ihfirst padded hpadded.held k hk
    rw [hsize, addU64_eq_ok hstop] at hfirst
    have hsmall := (appendConstant_fills hpadded.held hk).grows.held
    rw [IR.Module.memberLeaves]
    exact ((padTo_draws hpad).padding_trans hfirst).trans (ihrest k hsmall j hrest)
  case case5 =>
    intro fields start elements offsets i hend hi j h
    cases (appendMembers_end hend).symm.trans h
    rw [IR.Module.memberLeaves]
    · exact .refl
    · exact hend

/-- Writing a constant appends its leaves, each at its offset, and zeros. -/
theorem appendConstant_draws (hi : i.Held) (h : appendConstant m abi ty v i = .ok j) :
    Draws m abi (m.leavesAt ty v i.data.size) i j :=
  (append_draws alloc m abi).1 ty v i hi j h

end InstSelect.Lowering
