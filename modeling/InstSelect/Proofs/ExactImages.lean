import InstSelect.Proofs.ImageContents
import InstSelect.Proofs.WholeModules

/-!
# Data images are exact

The image of a global is what its type and its initializer say, byte for byte: it has the
size of the type, the leaves of the initializer stand at their offsets, everything else is
zero, and a relocation stands for each function and each global among the leaves, in their
order.

A part of an initializer is written the same wherever it begins: only the relocations move
along with it. So the stretch of a member or of an element is its own image, at the offset
that the layout gives it.
-/

namespace InstSelect.Machine

/-- The allocator that has memory for everything. -/
@[reducible]
def Allocator.unlimited : Allocator := ⟨fun _ => none⟩

/-- The relocation, some bytes farther on. -/
def Relocation.shift (distance : Nat) (r : Relocation) : Relocation :=
  { r with offset := r.offset + UInt64.ofNat distance }

/-- Each relocation is clear of those behind it. -/
theorem Spread.pairwise {a b : Nat} {rs : List Relocation} (h : Spread a rs b) :
    rs.Pairwise fun r r' => r.offset.toNat + 8 ≤ r'.offset.toNat := by
  induction rs generalizing a with
  | nil => exact .nil
  | cons r rs ih => exact .cons (fun r' hr' => (h.2.within hr').1) (ih h.2)

namespace Image

/-- The image has another one within it, from an offset on. -/
structure Contains (i : Image) (offset : Nat) (part : Image) : Prop where
  room : offset + part.data.size ≤ i.data.size
  data : ∀ n < part.data.size, i.data[offset + n]? = part.data[n]?
  relocations : (i.relocations.filter fun r =>
    offset ≤ r.offset.toNat ∧ r.offset.toNat < offset + part.data.size) =
      part.relocations.map (·.shift offset)

end Image

end InstSelect.Machine

namespace InstSelect.IR

/--
Where a part of a type begins: at the offsets of members and the strides of elements.
-/
def Ty.offsetAt : Ty → List Nat → Option Nat
  | _, [] => some 0
  | .struct _ fields packed, n :: path => do
    let layout ← (Ty.structLayout packed fields).toOption
    let offset ← layout.offsets[n]?
    let field ← fields[n]?
    let rest ← field.offsetAt path
    pure (offset.toNat + rest)
  | .array element _, n :: path => do
    let stride ← element.size.toOption
    let rest ← element.offsetAt path
    pure (stride.toNat * n + rest)
  | _, _ :: _ => none

/-- Only structs and arrays have parts, and each step adds its offset. -/
theorem Ty.offsetAt_cons {ty : Ty} {n offset : Nat} {path : List Nat}
    (h : ty.offsetAt (n :: path) = some offset) :
    (∃ name fields packed layout first field rest, ty = .struct name fields packed ∧
      Ty.structLayout packed fields = .ok layout ∧ layout.offsets[n]? = some first ∧
      fields[n]? = some field ∧ field.offsetAt path = some rest ∧
      offset = first.toNat + rest) ∨
    ∃ element length stride rest, ty = .array element length ∧ element.size = .ok stride ∧
      element.offsetAt path = some rest ∧ offset = stride.toNat * n + rest := by
  cases ty with
  | struct name fields packed =>
    simp only [Ty.offsetAt, Option.bind_eq_bind, Option.bind_eq_some_iff, Option.pure_def,
      Option.some.injEq] at h
    obtain ⟨layout, hlayout, first, hfirst, field, hfield, rest, hrest, rfl⟩ := h
    exact .inl ⟨name, fields, packed, layout, first, field, rest, rfl,
      Lowering.toOption_eq_some.mp hlayout, hfirst, hfield, hrest, rfl⟩
  | array element length =>
    simp only [Ty.offsetAt, Option.bind_eq_bind, Option.bind_eq_some_iff, Option.pure_def,
      Option.some.injEq] at h
    obtain ⟨stride, hstride, rest, hrest, rfl⟩ := h
    exact .inr ⟨element, length, stride, rest, rfl, Lowering.toOption_eq_some.mp hstride,
      hrest, rfl⟩
  | _ => cases h

end InstSelect.IR

namespace InstSelect.Lowering

open IR (ValueId Ty)
open Machine (Image Relocation Allocator)

variable {bytes : List UInt8} {count n : Nat} {r : UInt64 × Image} {stride : UInt64}
  {l : IR.Leaf}

section

variable {alloc : Allocator} {m : IR.Module} {abi : Abi} {i j k i0 j0 k0 : Image}
  {ty : Ty} {v : ValueId} {d : Nat} {size start start0 stop stop0 : UInt64}

/-! ## Writing from an earlier start -/

/-- Two images that grew by the same, the second one `d` bytes farther on. -/
structure Slides [Allocator] (d : Nat) (i0 j0 i j : Image) : Prop where
  held : j.Held
  ahead : j.data.size = j0.data.size + d
  appended : ∃ bytes rs, i0.Appended j0 bytes rs ∧ i.Appended j bytes (rs.map (·.shift d))

namespace Slides

theorem refl (hi : i.Held) (h : i.data.size = i0.data.size + d) : Slides d i0 i0 i i :=
  ⟨hi, h, [], [],
    ⟨rfl, (List.append_nil _).symm, (List.append_nil _).symm, Nat.le_refl _⟩,
    rfl, (List.append_nil _).symm, (List.append_nil _).symm, Nat.le_refl _⟩

theorem trans (h : Slides d i0 j0 i j) (h' : Slides d j0 k0 j k) :
    Slides d i0 k0 i k := by
  obtain ⟨bytes, rs, happended0, happended⟩ := h.appended
  obtain ⟨bytes', rs', happended₀', happended'⟩ := h'.appended
  refine ⟨h'.held, h'.ahead, bytes ++ bytes', rs ++ rs', happended0.trans happended₀', ?_⟩
  rw [List.map_append]
  exact happended.trans happended'

/-- Bytes without relocations. -/
theorem of_bytes (hd : i.data.size = i0.data.size + d) (hj : j.Held)
    (h0 : i0.Appended j0 bytes []) (h : i.Appended j bytes []) :
    Slides d i0 j0 i j := by
  refine ⟨hj, ?_, bytes, [], h0, h⟩
  rw [h.size, h0.size, hd]
  omega

end Slides

theorem addU64_slides {a a0 b c : UInt64} (hd : a.toNat = a0.toNat + d)
    (h : Word.addU64 a b = .ok c) :
    ∃ c0, Word.addU64 a0 b = .ok c0 ∧ c.toNat = c0.toNat + d := by
  have hc := addU64_eq_ok h
  have hfits : a0.toNat + b.toNat < UInt64.size := by
    have := c.toNat_lt_size
    omega
  refine ⟨a0 + b, if_pos hfits, ?_⟩
  rw [hc, hd, UInt64.toNat_add, Nat.mod_eq_of_lt hfits]
  omega

theorem reserve_slides {u : Unit} (hi : i.Held) (hd : i.data.size = i0.data.size + d)
    (h : i.reserve count = .ok u) : @Image.reserve .unlimited i0 count = .ok u := by
  have hle : i.data.size + count ≤ Image.maxSize := by
    obtain hzero | ⟨hle, -⟩ := hi.of_reserve h
    · omega
    · exact hle
  exact Image.reserve_eq_ok.mpr (.inr (.inr ⟨by omega, rfl⟩))

theorem appendZeros_slides {count : UInt64} (hi : i.Held)
    (hd : i.data.size = i0.data.size + d) (h : i.appendZeros count = .ok r) :
    ∃ j0, @Image.appendZeros .unlimited i0 count = .ok (i0.size, j0) ∧
      Slides d i0 j0 i r.2 := by
  have hgrows := (Image.appendZeros_eq_ok hi h).1
  have happended := appendZeros_appended h
  obtain ⟨u, hroom, -⟩ := bind_eq_ok.mp h
  have h0 : @Image.appendZeros .unlimited i0 count =
      .ok (i0.size, { i0 with data := i0.data ++ Array.replicate count.toNat 0 }) :=
    bind_eq_ok.mpr ⟨u, reserve_slides hi hd hroom, rfl⟩
  exact ⟨_, h0, .of_bytes hd hgrows.held (appendZeros_appended h0) happended⟩

theorem appendData_slides (hi : i.Held) (hd : i.data.size = i0.data.size + d)
    (h : i.appendData bytes = .ok r) :
    ∃ r0, @Image.appendData .unlimited i0 bytes = .ok r0 ∧ Slides d i0 r0.2 i r.2 := by
  have hgrows := Image.appendData_grows hi h
  have happended := appendData_appended h
  obtain ⟨u, hroom, -⟩ := bind_eq_ok.mp h
  have h0 : @Image.appendData .unlimited i0 bytes =
      .ok (i0.size, { i0 with data := i0.data.appendList bytes }) :=
    bind_eq_ok.mpr ⟨u, reserve_slides hi hd hroom, rfl⟩
  exact ⟨_, h0, .of_bytes hd hgrows.held (appendData_appended h0) happended⟩

theorem held_of_ahead (hi : i.Held) (hd : i.data.size = i0.data.size + d) :
    @Image.Held .unlimited i0 :=
  .inr ⟨by have := hi.le; omega, rfl⟩

theorem size_of_ahead (hi : i.Held) (hd : i.data.size = i0.data.size + d) :
    i.size.toNat = i0.size.toNat + d := by
  rw [hi.toNat_size, (held_of_ahead hi hd).toNat_size, hd]

theorem padTo_slides (hi : i.Held) (hd : i.data.size = i0.data.size + d)
    (hstop : stop.toNat = stop0.toNat + d) (h : padTo i stop = .ok j) :
    ∃ j0, @padTo .unlimited i0 stop0 = .ok j0 ∧ Slides d i0 j0 i j := by
  have hsize := size_of_ahead hi hd
  simp only [padTo, bind_eq_ok, require_eq_ok, decide_eq_true_eq] at h ⊢
  obtain ⟨-, hle, h⟩ := h
  have hle0 : i0.size ≤ stop0 := by
    rw [UInt64.le_iff_toNat_le] at hle ⊢
    omega
  have hiff : i0.size < stop0 ↔ i.size < stop := by
    rw [UInt64.lt_iff_toNat_lt, UInt64.lt_iff_toNat_lt]
    omega
  by_cases hlt : i.size < stop
  · rw [if_pos hlt, bind_eq_ok] at h
    obtain ⟨r, hr, h⟩ := h
    cases pure_eq_ok.mp h
    have hcount : stop - i.size = stop0 - i0.size := by
      apply UInt64.toNat_inj.mp
      rw [UInt64.toNat_sub_of_le _ _ hle, UInt64.toNat_sub_of_le _ _ hle0]
      omega
    rw [hcount] at hr
    obtain ⟨j0, hj0, hslides⟩ := appendZeros_slides hi hd hr
    refine ⟨j0, ⟨(), hle0, ?_⟩, hslides⟩
    rw [if_pos (hiff.mpr hlt), bind_eq_ok]
    exact ⟨_, hj0, rfl⟩
  · rw [if_neg hlt] at h
    cases pure_eq_ok.mp h
    refine ⟨i0, ⟨(), hle0, ?_⟩, .refl hi hd⟩
    rw [if_neg (mt hiff.mp hlt)]
    rfl

theorem padFrom_slides (hi : i.Held) (hd : i.data.size = i0.data.size + d)
    (hstart : start.toNat = start0.toNat + d) (h : padFrom start size i = .ok j) :
    ∃ j0, @padFrom .unlimited start0 size i0 = .ok j0 ∧ Slides d i0 j0 i j := by
  simp only [padFrom, bind_eq_ok, ofWord_eq_ok] at h ⊢
  obtain ⟨stop, hstop, h⟩ := h
  obtain ⟨stop0, hstop0, hahead⟩ := addU64_slides hstart hstop
  obtain ⟨j0, hj0, hslides⟩ := padTo_slides hi hd hahead h
  exact ⟨j0, ⟨stop0, hstop0, hj0⟩, hslides⟩

/-- The relocation of an address moves along with it. -/
theorem appendPointer_slides {symbol : String} (hi : i.Held)
    (hd : i.data.size = i0.data.size + d) (h : appendPointer i symbol = .ok j) :
    ∃ j0, @appendPointer .unlimited i0 symbol = .ok j0 ∧ Slides d i0 j0 i j := by
  have happended := appendPointer_appended hi h
  have hsmall := (appendPointer_grows hi h).held
  have hsmall0 := held_of_ahead hi hd
  simp only [appendPointer, bind_eq_ok] at h ⊢
  obtain ⟨r, hzeros, h⟩ := h
  obtain ⟨w0, hzeros0, hslides⟩ := appendZeros_slides hi hd hzeros
  obtain ⟨-, -, hsize0, -⟩ := Image.appendZeros_eq_ok hsmall0 hzeros0
  have hw0 := held_of_ahead hslides.held hslides.ahead
  have hstop : Word.addU64 i0.size 8 = .ok (i0.size + 8) := by
    refine if_pos ?_
    have := hsmall0.le
    have hmax : Image.maxSize = 2 ^ 63 - 1 := rfl
    have hword : UInt64.size = 2 ^ 64 := rfl
    rw [hsmall0.toNat_size, show (8 : UInt64).toNat = 8 from rfl]
    omega
  have hwithin : i0.size + 8 ≤ w0.size := by
    rw [UInt64.le_iff_toNat_le, addU64_eq_ok hstop, hsmall0.toNat_size,
      hw0.toNat_size, hsize0]
    exact Nat.le_refl _
  have hj0 : @Image.addRelocation .unlimited w0 i0.size symbol =
      .ok { w0 with relocations := w0.relocations ++ [⟨i0.size, symbol⟩] } :=
    bind_eq_ok.mpr ⟨_, ofWord_eq_ok.mpr hstop,
      bind_eq_ok.mpr ⟨(), require_eq_ok.mpr (decide_eq_true hwithin), rfl⟩⟩
  have hpointer : @appendPointer .unlimited i0 symbol =
      .ok { w0 with relocations := w0.relocations ++ [⟨i0.size, symbol⟩] } :=
    bind_eq_ok.mpr ⟨_, hzeros0, hj0⟩
  have happended0 := appendPointer_appended hsmall0 hpointer
  refine ⟨_, ⟨_, hzeros0, hj0⟩, hsmall, ?_, _, _, happended0, ?_⟩
  · rw [happended.size, happended0.size, hd]
    omega
  · have hsize : i.size = i0.size + UInt64.ofNat d := by
      rw [Image.size, hd, UInt64.ofNat_add]
      rfl
    rw [List.map_singleton, Relocation.shift, ← hsize]
    exact happended

theorem appendLeaf_slides {kind : IR.ValueKind} (hi : i.Held)
    (hd : i.data.size = i0.data.size + d)
    (h : appendLeaf m abi i v ty size kind = .ok j) :
    ∃ j0, @appendLeaf .unlimited m abi i0 v ty size kind = .ok j0 ∧
      Slides d i0 j0 i j := by
  have hzeros : (do pure (← i.appendZeros size).2) = .ok j →
      ∃ j0, (do pure (← @Image.appendZeros .unlimited i0 size).2) = .ok j0 ∧
      Slides d i0 j0 i j := by
    intro h
    simp only [bind_eq_ok, pure_eq_ok] at h ⊢
    obtain ⟨r, hr, rfl⟩ := h
    obtain ⟨j0, hj0, hslides⟩ := appendZeros_slides hi hd hr
    exact ⟨j0, ⟨_, hj0, rfl⟩, hslides⟩
  have hdata : ∀ {bytes : List UInt8}, (do pure (← i.appendData bytes).2) = .ok j →
      ∃ j0, (do pure (← @Image.appendData .unlimited i0 bytes).2) = .ok j0 ∧
      Slides d i0 j0 i j := by
    intro bytes h
    simp only [bind_eq_ok, pure_eq_ok] at h ⊢
    obtain ⟨r, hr, rfl⟩ := h
    obtain ⟨r0, hr0, hslides⟩ := appendData_slides hi hd hr
    exact ⟨r0.2, ⟨_, hr0, rfl⟩, hslides⟩
  cases kind with
  | constant c =>
    cases c with
    | null => exact hzeros h
    | zero => exact hzeros h
    | undef => exact hzeros h
    | int n => exact hdata h
    | float x => cases ty <;> exact hdata h
    | bytes data =>
      obtain ⟨u, hfits, h⟩ := bind_eq_ok.mp h
      obtain ⟨j0, hj0, hslides⟩ := hdata h
      exact ⟨j0, bind_eq_ok.mpr ⟨u, hfits, hj0⟩, hslides⟩
    | aggregate elements => exact absurd h violate_ne_ok
  | function func =>
    obtain ⟨f, hf, h⟩ := bind_eq_ok.mp h
    obtain ⟨symbol, hsymbol, h⟩ := bind_eq_ok.mp h
    obtain ⟨j0, hj0, hslides⟩ := appendPointer_slides hi hd h
    exact ⟨j0, bind_eq_ok.mpr ⟨f, hf, bind_eq_ok.mpr ⟨symbol, hsymbol, hj0⟩⟩, hslides⟩
  | global global =>
    obtain ⟨g, hg, h⟩ := bind_eq_ok.mp h
    obtain ⟨j0, hj0, hslides⟩ := appendPointer_slides hi hd h
    exact ⟨j0, bind_eq_ok.mpr ⟨g, hg, hj0⟩, hslides⟩
  | _ => exact absurd h violate_ne_ok

theorem elementStart_slides (hstart : start.toNat = start0.toNat + d)
    (h : elementStart start stride n = .ok stop) :
    ∃ stop0, elementStart start0 stride n = .ok stop0 ∧ stop.toNat = stop0.toNat + d := by
  simp only [elementStart, bind_eq_ok] at h ⊢
  obtain ⟨distance, hdistance, h⟩ := h
  obtain ⟨stop0, hstop0, hahead⟩ := addU64_slides hstart h
  exact ⟨stop0, ⟨distance, hdistance, hstop0⟩, hahead⟩

theorem appendConstant_of_written (h : Written alloc m abi v i j ty) :
    appendConstant m abi ty v i = .ok j := by
  cases h with
  | members sized value aggregate count placed parts padded =>
    simp only [appendConstant, bind_eq_ok, ofWord_eq_ok]
    refine ⟨_, sized, _, value, ?_⟩
    rw [aggregate]
    simp only [bind_eq_ok, ofWord_eq_ok, require_eq_ok, decide_eq_true_eq]
    exact ⟨(), count, _, placed, _, parts, padded⟩
  | elements sized value aggregate count step parts padded =>
    simp only [appendConstant, bind_eq_ok, ofWord_eq_ok]
    refine ⟨_, sized, _, value, ?_⟩
    rw [aggregate]
    simp only [bind_eq_ok, ofWord_eq_ok, require_eq_ok, decide_eq_true_eq]
    exact ⟨(), count, _, step, _, parts, padded⟩
  | leaf sized value leaf padded =>
    cases ty with
    | struct name fields packed | array element length =>
      simp only [appendConstant, bind_eq_ok, ofWord_eq_ok]
      refine ⟨_, sized, _, value, ?_⟩
      split
      · next hkind => exact absurd leaf (appendLeaf_aggregate hkind)
      · exact bind_eq_ok.mpr ⟨_, leaf, padded⟩
    | _ =>
      simp only [appendConstant, bind_eq_ok, ofWord_eq_ok]
      exact ⟨_, sized, _, value, _, leaf, padded⟩

/--
Elements one after the other, if each of them is written the same from an earlier start.
-/
theorem appendElements_slides_of {element : Ty} {entries : List (ValueId × Nat)}
    (hwrite : ∀ v i, ∀ i0 d j, i.Held → i.data.size = i0.data.size + d →
      appendConstant m abi element v i = .ok j →
        ∃ j0, @appendConstant .unlimited m abi element v i0 = .ok j0 ∧ Slides d i0 j0 i j)
    (hi : i.Held) (hd : i.data.size = i0.data.size + d)
    (hstart : start.toNat = start0.toNat + d)
    (h : entries.foldlM (appendElement m abi element start stride) i = .ok j) :
    ∃ j0, entries.foldlM (@appendElement .unlimited m abi element start0 stride) i0 =
      .ok j0 ∧
      Slides d i0 j0 i j := by
  induction entries generalizing i i0 with
  | nil =>
    cases h
    exact ⟨i0, rfl, .refl hi hd⟩
  | cons entry entries ih =>
    obtain ⟨k, hk, h⟩ := foldlM_cons_eq_ok.mp h
    obtain ⟨offset, padded, hoffset, hpad, hk⟩ := appendElement_eq_ok.mp hk
    obtain ⟨offset0, hoffset0, hahead⟩ := elementStart_slides hstart hoffset
    obtain ⟨padded0, hpad0, hpadded⟩ := padTo_slides hi hd hahead hpad
    obtain ⟨k0, hk0, hfirst⟩ := hwrite _ padded padded0 d k hpadded.held hpadded.ahead hk
    obtain ⟨j0, hj0, hrest⟩ := ih hfirst.held hfirst.ahead h
    exact ⟨j0, foldlM_cons_eq_ok.mpr
      ⟨k0, appendElement_eq_ok.mpr ⟨offset0, padded0, hoffset0, hpad0, hk0⟩,
        hj0⟩, (hpadded.trans hfirst).trans hrest⟩

/-- Constants and members are written the same from an earlier start. -/
theorem append_slides (alloc : Allocator) (m : IR.Module) (abi : Abi) :
    (∀ ty v i, ∀ i0 d j, i.Held → i.data.size = i0.data.size + d →
      appendConstant m abi ty v i = .ok j →
        ∃ j0, @appendConstant .unlimited m abi ty v i0 = .ok j0 ∧ Slides d i0 j0 i j) ∧
    ∀ start fields elements offsets i, ∀ start0 i0 d j, i.Held →
      i.data.size = i0.data.size + d →
      start.toNat = start0.toNat + d →
        appendMembers m abi start fields elements offsets i = .ok j →
        ∃ j0, @appendMembers .unlimited m abi start0 fields elements offsets i0 = .ok j0 ∧
          Slides d i0 j0 i j := by
  have hleaf : ∀ {ty v} {i i0 j k : Image} {d : Nat} {size : UInt64} {data : IR.Value},
    i.Held →
      i.data.size = i0.data.size + d → ty.size = .ok size → m.value v = .ok data →
      appendLeaf m abi i v ty size data.kind = .ok k → padFrom i.size size k = .ok j →
      ∃ j0, @appendConstant .unlimited m abi ty v i0 = .ok j0 ∧ Slides d i0 j0 i j := by
    intro ty v i i0 j k d size data hi hd hsize hv hk hpad
    obtain ⟨k0, hk0, hleaf⟩ := appendLeaf_slides hi hd hk
    obtain ⟨j0, hj0, hpadded⟩ :=
      padFrom_slides hleaf.held hleaf.ahead (size_of_ahead hi hd) hpad
    exact ⟨j0, appendConstant_of_written (.leaf hsize hv hk0 hj0), hleaf.trans hpadded⟩
  apply appendConstant.mutual_induct
  case case1 =>
    intro name fields packed v i _ ih i0 d j hi hd h
    cases written_of_appendConstant h with
    | members sized value aggregate count placed parts padded =>
      have hstart := size_of_ahead hi hd
      obtain ⟨k0, hk0, hparts⟩ := ih _ _ _ i0 d _ hi hd hstart parts
      obtain ⟨j0, hj0, hpadded⟩ := padFrom_slides hparts.held hparts.ahead hstart padded
      exact ⟨j0, appendConstant_of_written
        (.members sized value aggregate count placed hk0 hj0), hparts.trans hpadded⟩
    | leaf sized value leaf padded => exact hleaf hi hd sized value leaf padded
  case case2 =>
    intro element length v i ih i0 d j hi hd h
    cases written_of_appendConstant h with
    | elements sized value aggregate count step parts padded =>
      have hstart := size_of_ahead hi hd
      obtain ⟨k0, hk0, hparts⟩ :=
        appendElements_slides_of (fun v i => ih (v, 0) i) hi hd hstart parts
      obtain ⟨j0, hj0, hpadded⟩ := padFrom_slides hparts.held hparts.ahead hstart padded
      exact ⟨j0, appendConstant_of_written
        (.elements sized value aggregate count step hk0 hj0), hparts.trans hpadded⟩
    | leaf sized value leaf padded => exact hleaf hi hd sized value leaf padded
  case case3 =>
    intro ty v i hstruct harray i0 d j hi hd h
    cases written_of_appendConstant h with
    | members => exact absurd rfl (hstruct _ _ _)
    | elements => exact absurd rfl (harray _ _)
    | leaf sized value leaf padded => exact hleaf hi hd sized value leaf padded
  case case4 =>
    intro start field fields element elements offset offsets i ihfirst ihrest start0 i0 d
      j hi hd hstart h
    obtain ⟨stop, padded, k, hstop, hpad, hk, hrest⟩ := appendMembers_cons.mp h
    obtain ⟨stop0, hstop0, hahead⟩ := addU64_slides hstart hstop
    obtain ⟨padded0, hpad0, hpadded⟩ := padTo_slides hi hd hahead hpad
    obtain ⟨k0, hk0, hfirst⟩ := ihfirst padded padded0 d k hpadded.held hpadded.ahead hk
    obtain ⟨j0, hj0, hslides⟩ :=
      ihrest k start0 k0 d j hfirst.held hfirst.ahead hstart hrest
    exact ⟨j0, appendMembers_cons.mpr ⟨stop0, padded0, k0, hstop0, hpad0, hk0, hj0⟩,
      (hpadded.trans hfirst).trans hslides⟩
  case case5 =>
    intro fields start elements offsets i hend start0 i0 d j hi hd hstart h
    cases (appendMembers_end hend).symm.trans h
    exact ⟨i0, appendMembers_end hend, .refl hi hd⟩

/-- A constant is written the same from an earlier start. -/
theorem appendConstant_slides (i0 : Image) (hi : i.Held)
    (hd : i.data.size = i0.data.size + d) (h : appendConstant m abi ty v i = .ok j) :
    ∃ j0, @appendConstant .unlimited m abi ty v i0 = .ok j0 ∧ Slides d i0 j0 i j :=
  (append_slides alloc m abi).1 ty v i i0 d j hi hd h

/-! ## Parts of an initializer -/

variable {E : Ty} {e init : ValueId} {path : List Nat} {g : IR.Global} {img : Image}

/-- The writer comes to a part at the offset that the layout gives it. -/
theorem Writing.offset (h : Writing m abi ty v i path E e k) (hi : i.Held) :
    ∃ offset, ty.offsetAt path = some offset ∧ k.data.size = i.data.size + offset := by
  induction h with
  | here ty v i => exact ⟨0, by rw [Ty.offsetAt], rfl⟩
  | member value aggregate field_eq part_eq placed before offset_eq stop_eq padding
      rest ih =>
    obtain ⟨hpadded, hsize⟩ := padTo_grows (appendMembers_grows hi before).held padding
    obtain ⟨inner, hinner, hlast⟩ := ih hpadded.held
    rw [addU64_eq_ok stop_eq, hi.toNat_size] at hsize
    refine ⟨_, ?_, by rw [hlast, hsize, Nat.add_assoc]⟩
    simp [Ty.offsetAt, placed, offset_eq, field_eq, hinner, Except.toOption]
  | @element element E length stride stop v part e data elements n path i k padded last
      value aggregate part_eq step before stop_eq padding rest ih =>
      have hbefore := appendElements_grows hi before
      obtain ⟨hpadded, hsize⟩ := padTo_grows hbefore.held padding
      obtain ⟨inner, hinner, hlast⟩ := ih hpadded.held
      have hn : (elements.take n).length = n :=
        List.length_take_of_le (Nat.le_of_lt (List.getElem?_eq_some_iff.mp part_eq).1)
      have hk := appendElements_size hi step
        (by rw [hi.toNat_size, Nat.mul_zero, Nat.add_zero]) before
      rw [hn, Nat.zero_add] at hk
      rw [elementStart_of_size hbefore.held hk stop_eq, hk, hi.toNat_size] at hsize
      refine ⟨_, ?_, by rw [hlast, hsize, Nat.add_assoc]⟩
      simp [Ty.offsetAt, step, hinner, Except.toOption]

/-- A type with a size has an alignment. -/
theorem align_of_size (h : ty.size = .ok size) : ∃ align, ty.align = .ok align := by
  obtain ⟨extent, hextent, -⟩ := bind_eq_ok.mp h
  exact ⟨extent.align, bind_eq_ok.mpr ⟨extent, hextent, rfl⟩⟩

/-- The alignment of a global: its own, or else that of its type. -/
def Aligned (g : IR.Global) (align : UInt32) : Prop :=
  g.alignment = some align ∨ g.alignment = none ∧ g.ty.align = .ok align

theorem exists_aligned (h : g.ty.size = .ok size) : ∃ align, Aligned g align := by
  cases halign : g.alignment with
  | some align => exact ⟨align, .inl halign⟩
  | none =>
    obtain ⟨align, h⟩ := align_of_size h
    exact ⟨align, .inr ⟨halign, h⟩⟩

/-- The image of a global with an initializer. -/
theorem imageOf_initialized (hinit : g.initializer = some init) :
    imageOf m abi g = .ok img ↔
      ∃ align, Aligned g align ∧
        appendConstant m abi g.ty init (.empty g.name align) = .ok img := by
  unfold imageOf Aligned
  cases halign : g.alignment with
  | some align => simp [hinit]
  | none => simp [hinit, bind_eq_ok]

/-- The image of a global without one is all zero. -/
theorem imageOf_uninitialized (hinit : g.initializer = none)
    (h : imageOf m abi g = .ok img) :
    ∃ align size, g.ty.size = .ok size ∧
      ∃ r, (Image.empty g.name align).appendZeros size = .ok r ∧ r.2 = img := by
  unfold imageOf at h
  cases halign : g.alignment with
  | some align =>
    simp only [hinit, halign, pure_bind, bind_eq_ok, ofWord_eq_ok, pure_eq_ok] at h
    exact ⟨align, h⟩
  | none =>
    simp only [hinit, halign, bind_eq_ok, ofWord_eq_ok, pure_eq_ok] at h
    obtain ⟨align, -, h⟩ := h
    exact ⟨align, h⟩

/-- The stretch of a part is its own image. -/
theorem contains_part (hinit : g.initializer = some init) (h : imageOf m abi g = .ok img)
    (hpart : m.HasPart g.ty init path E e) :
    ∃ offset size alone, g.ty.offsetAt path = some offset ∧ E.size = .ok size ∧
      @imageOf .unlimited m abi { g with ty := E, initializer := some e } = .ok alone ∧
      alone.data.size = size.toNat ∧ img.Contains offset alone := by
  obtain ⟨align, -, himg⟩ := (imageOf_initialized hinit).mp h
  have hempty := @Image.held_empty alloc g.name align
  obtain ⟨k, l, hwriting, hl, hgrows⟩ := writing_of_hasPart hpart hempty himg
  obtain ⟨offset, hoffset, hk⟩ := hwriting.offset hempty
  obtain ⟨bytes1, rs1, before⟩ := (hwriting.grows hempty).appended
  obtain ⟨bytes3, rs3, behind⟩ := hgrows.appended
  have hksmall := (hwriting.grows hempty).held
  obtain ⟨-, size, hsize, hlsize⟩ := appendConstant_fills hksmall hl
  obtain ⟨align', halign'⟩ :=
    exists_aligned (g := { g with ty := E, initializer := some e }) hsize
  obtain ⟨alone, halone, hslides⟩ :=
    appendConstant_slides (d := offset) (Image.empty g.name align') hksmall hk hl
  obtain ⟨bytes, rs, happended0, happended⟩ := hslides.appended
  have hdata : alone.data.toList = bytes := happended0.data
  have hrs : alone.relocations = rs := happended0.relocations
  have hwhole := (before.trans happended).trans behind
  have hkoffset : k.data.size = offset := hk.trans (Nat.zero_add _)
  have hbytes1 : bytes1.length = offset := by
    rw [← hkoffset, before.size]
    exact (Nat.zero_add _).symm
  have halonesize : alone.data.size = bytes.length := by rw [← Array.length_toList, hdata]
  have hlend : l.data.size = offset + alone.data.size :=
    by rw [happended.size, hkoffset, halonesize]
  refine ⟨offset, size, alone, hoffset, hsize,
    (imageOf_initialized rfl).mpr ⟨align', halign', halone⟩,
    by omega, ?_, fun n hn => ?_, ?_⟩
  · have := hgrows.size_le
    omega
  · rw [← Array.getElem?_toList, ← Array.getElem?_toList, hwhole.data, hdata,
      List.append_assoc,
      show (Image.empty g.name align).data.toList = [] from rfl, List.nil_append,
      List.getElem?_append_right (by omega), List.getElem?_append_left (by omega)]
    congr 1
    omega
  · -- What stands before the part ends before it, and what follows begins behind it.
    have hbefore : rs1.filter (fun r =>
        offset ≤ r.offset.toNat ∧ r.offset.toNat < offset + alone.data.size) = [] := by
      refine List.filter_eq_nil_iff.mpr fun r hr => ?_
      have := (before.spread.within hr).2
      simp only [decide_eq_true_eq, not_and, not_lt]
      omega
    have hbehind : rs3.filter (fun r =>
        offset ≤ r.offset.toNat ∧ r.offset.toNat < offset + alone.data.size) = [] := by
      refine List.filter_eq_nil_iff.mpr fun r hr => ?_
      have := (behind.spread.within hr).1
      simp only [decide_eq_true_eq, not_and, not_lt]
      omega
    have hwithin : (rs.map (·.shift offset)).filter (fun r =>
        offset ≤ r.offset.toNat ∧ r.offset.toNat < offset + alone.data.size) =
          rs.map (·.shift offset) := by
      refine List.filter_eq_self.mpr fun r hr => ?_
      have := happended.spread.within hr
      simp only [decide_eq_true_eq]
      omega
    rw [hwhole.relocations, hrs, List.filter_append, List.filter_append,
      List.filter_append, hbefore, hbehind, hwithin]
    simp [Image.empty]

/-! ## Whole images -/

/-- The image of a global is what its type and its initializer say. -/
structure Exact (m : IR.Module) (abi : Abi) (g : IR.Global) (img : Image) : Prop where
  /-- It has the bytes of the type. -/
  sized : ∃ size, g.ty.size = .ok size ∧ img.data.size = size.toNat
  /-- Relocations come in order, each clear of the next. -/
  apart : img.relocations.Pairwise fun r r' => r.offset.toNat + 8 ≤ r'.offset.toNat
  /-- Each relocation covers eight zero bytes. -/
  blank : ∀ r ∈ img.relocations, r.offset.toNat + 8 ≤ img.data.size ∧
    ∀ n < 8, img.data[r.offset.toNat + n]? = some 0
  /-- They are those of the functions and globals among the leaves. -/
  references : List.Forall₂ (m.Relocates abi) img.relocations
    ((m.initialLeaves g).filter m.isReference)
  /-- Each member and each element is the image it has by itself, at its offset. -/
  parts : ∀ init path E e, g.initializer = some init → m.HasPart g.ty init path E e →
    ∃ offset size alone, g.ty.offsetAt path = some offset ∧ E.size = .ok size ∧
      @imageOf .unlimited m abi { g with ty := E, initializer := some e } = .ok alone ∧
      alone.data.size = size.toNat ∧ img.Contains offset alone
  /-- The leaves stand at their offsets. -/
  leaves : ∀ l ∈ m.initialLeaves g, ∀ n b, (m.leafBytes l)[n]? = some b →
    img.data[l.offset + n]? = some b
  /-- All bytes that belong to no leaf are zero. -/
  padding : ∀ n b, img.data[n]? = some b → b ≠ 0 →
    ∃ l ∈ m.initialLeaves g, ∃ n', n = l.offset + n' ∧ (m.leafBytes l)[n']? = some b
  /-- Numbers are stored with their low byte first. -/
  numbers : ∀ l ∈ m.initialLeaves g, ∀ ty x size,
    m.value l.value = .ok ⟨ty, .constant (.int x)⟩ →
    l.ty.size = .ok size → size.toNat ≤ 8 → ∀ n < size.toNat,
      img.data[l.offset + n]? = some ⟨x.toBitVec.extractLsb' (8 * n) 8⟩

/-- The image of a global draws the leaves of its initializer. -/
theorem imageOf_draws (h : imageOf m abi g = .ok img) :
    ∃ align, img.Held ∧ (∃ size, g.ty.size = .ok size ∧ img.data.size = size.toNat) ∧
      Draws m abi (m.initialLeaves g) (Image.empty g.name align) img := by
  cases hinit : g.initializer with
  | some init =>
    obtain ⟨align, -, himg⟩ := (imageOf_initialized hinit).mp h
    have hempty := @Image.held_empty alloc g.name align
    obtain ⟨hgrows, size, hsize, hend⟩ := appendConstant_fills hempty himg
    refine ⟨align, hgrows.held, ⟨size, hsize, hend.trans (Nat.zero_add _)⟩, ?_⟩
    rw [IR.Module.initialLeaves, hinit]
    exact appendConstant_draws hempty himg
  | none =>
    obtain ⟨align, size, hsize, r, hr, rfl⟩ := imageOf_uninitialized hinit h
    obtain ⟨hgrows, -, hend, -⟩ := Image.appendZeros_eq_ok (Image.held_empty _ _) hr
    refine ⟨align, hgrows.held, ⟨size, hsize, hend.trans (Nat.zero_add _)⟩, ?_⟩
    rw [IR.Module.initialLeaves, hinit]
    exact .of_zeros _ (appendZeros_appended hr)

theorem leafBytes_of_reference (h : m.isReference l = true) :
    m.leafBytes l = List.replicate 8 0 := by
  unfold IR.Module.isReference at h
  unfold IR.Module.leafBytes
  split at h
  · next hv => rw [hv]
  · next hv => rw [hv]
  · cases h

theorem getElem?_bytesLE (w : UInt64) (h : n < count) :
    (Word.bytesLE w count)[n]? = some ⟨w.toBitVec.extractLsb' (8 * n) 8⟩ := by
  rw [Word.bytesLE, List.getElem?_map, List.getElem?_range h, Option.map_some]
  congr 1

/-- The bytes of a number that has room for them. -/
theorem leafBytes_of_int {x : Int64}
    (hv : m.value l.value = .ok ⟨ty, .constant (.int x)⟩) (hsize : l.ty.size = .ok size)
    (hle : size.toNat ≤ 8) (hn : n < size.toNat) :
    (m.leafBytes l)[n]? = some ⟨x.toBitVec.extractLsb' (8 * n) 8⟩ := by
  have hbytes : m.leafBytes l = Word.bytesLE x.toUInt64 size.toNat := by
    simp only [IR.Module.leafBytes, hv, hsize, Nat.min_eq_left hle]
  rw [hbytes, getElem?_bytesLE _ hn]
  rfl

theorem exact_of_imageOf (h : imageOf m abi g = .ok img) : Exact m abi g img := by
  obtain ⟨align, -, hsize, bytes, rs, happended, hrenders⟩ := imageOf_draws h
  have hdata : ∀ n : Nat, img.data[n]? = bytes[n]? := by
    intro n
    rw [← Array.getElem?_toList, happended.data]
    rfl
  have hrs : img.relocations = rs := happended.relocations
  have hleaves : ∀ l ∈ m.initialLeaves g, ∀ n b, (m.leafBytes l)[n]? = some b →
      img.data[l.offset + n]? = some b := by
    intro l hl n b hb
    rw [hdata]
    exact (hrenders.shown l hl).2 n b hb
  refine ⟨hsize, hrs ▸ happended.spread.pairwise,
    fun r hr => ?_, hrs ▸ hrenders.references,
    fun init path E e hinit hpart => contains_part hinit h hpart, hleaves,
    fun n b hb hne => ?_,
    fun l hl ty x size hv hlsize hle n hn =>
    hleaves l hl n _ (leafBytes_of_int hv hlsize hle hn)⟩
  · rw [hrs] at hr
    refine ⟨(happended.spread.within hr).2, fun n hn => ?_⟩
    obtain ⟨l, hl, hoffset, -⟩ := exists_right_of_forall₂ hrenders.references hr
    obtain ⟨hl, hreference⟩ := List.mem_filter.mp hl
    rw [hoffset]
    refine hleaves l hl n 0 ?_
    rw [leafBytes_of_reference hreference, List.getElem?_replicate, if_pos hn]
  · rw [hdata] at hb
    obtain ⟨l, hl, n', hn, hb'⟩ := hrenders.padding n b hb hne
    exact ⟨l, hl, n', (Nat.zero_add n).symm.trans hn, hb'⟩

/--
The image of a global is exact, whatever its type and however the constants of the module
refer to each other: wherever lowering the global succeeds, it adds one image to the
program, with the bytes, the relocations and the padding that the layout of the type and
the leaves of the initializer call for.
-/
theorem lowerGlobal_exact {env : Env} {gid : IR.GlobalId} {t t' : State}
    (h : Runs (lowerGlobal gid) env t () t') :
    ∃ g img, env.module.global gid = .ok g ∧
      t' = { t with output := t.output.pushGlobal img } ∧
        Exact env.module env.abi g img := by
  obtain ⟨g, img, hg, himg, -, rfl⟩ := runs_lowerGlobal.mp h
  exact ⟨g, img, hg, rfl, exact_of_imageOf himg⟩

end

/-- A number and the function that handles it, with six bytes of padding between them. -/
def handlerTy : Ty := .struct none [.int .w16, .ptr (.function [] .void false)] false

/-- Two handlers, a short text and a link. -/
def dispatchTy : Ty :=
  .struct none [.array handlerTy 2, .array (.uint .w8) 5, .ptr (.int .w8)] false

/-- A table of handlers, the second one empty, with a link to itself. -/
def dispatchTable : IR.Module where
  name := "m"
  values := #[⟨.ptr (.function [] .void false), .function ⟨0⟩⟩,
    ⟨.int .w16, .constant (.int (-2))⟩,
    ⟨handlerTy, .constant (.aggregate [⟨1⟩, ⟨0⟩])⟩, ⟨handlerTy, .constant .zero⟩,
    ⟨.array handlerTy 2, .constant (.aggregate [⟨2⟩, ⟨3⟩])⟩,
    ⟨.array (.uint .w8) 5, .constant (.bytes [104, 105])⟩, ⟨.ptr dispatchTy, .global ⟨0⟩⟩,
    ⟨dispatchTy, .constant (.aggregate [⟨4⟩, ⟨5⟩, ⟨6⟩])⟩]
  insts := #[]
  blocks := #[]
  functions := #[⟨"handle", ⟨[], .void, false⟩, [], [], true, ⟨0⟩⟩]
  globals := #[⟨"dispatch", dispatchTy, some ⟨7⟩, none, ⟨6⟩⟩]

/-- Its image: two relocations, and padding behind the number and behind the text. -/
def dispatchImage : Image where
  name := "dispatch"
  align := 8
  data := #[254, 255, 0, 0, 0, 0, 0, 0, 0, 0, 0, 0, 0, 0, 0, 0, 0, 0, 0, 0, 0, 0, 0, 0,
    0, 0, 0, 0, 0, 0, 0, 0, 104, 105, 0, 0, 0, 0, 0, 0, 0, 0, 0, 0, 0, 0, 0, 0]
  relocations := [⟨8, "handle"⟩, ⟨40, "dispatch"⟩]

theorem dispatchTable_exact :
    ∃ t', Runs (lowerGlobal ⟨0⟩) ⟨dispatchTable, .win64⟩ (.initial "m") () t' ∧
      t'.output.globals = [dispatchImage] ∧
      Exact dispatchTable .win64 ⟨"dispatch", dispatchTy, some ⟨7⟩, none, ⟨6⟩⟩
        dispatchImage := by
  obtain ⟨_, t', hrun, hglobals⟩ := runs_of_leaves (s := .initial "m")
    (show leaves (lowerGlobal ⟨0⟩) ⟨dispatchTable, .win64⟩ _
      (fun _ s => s.output.globals = [dispatchImage]) = true by decide +kernel)
  rw [decide_eq_true_eq] at hglobals
  refine ⟨t', hrun, hglobals, ?_⟩
  obtain ⟨g, img, hg, rfl, hexact⟩ :=
    @lowerGlobal_exact ⟨dispatchTable, .win64⟩ ⟨0⟩ _ _ hrun
  cases hg
  cases hglobals
  exact hexact

end InstSelect.Lowering
