import InstSelect.Proofs.ExactImages
import InstSelect.Proofs.Layouts
import InstSelect.Proofs.Overflow

/-!
# Globals too large for memory

A global that no memory holds is refused when its bytes are asked for. Before that its
layout is computed, and sizes stop at the largest word there instead of leaving it.
Rounding up does not stop: a member end right below `2 ^ 64` has no multiple of its
alignment left in the word, and then the layout itself overflows. Whether a type is such a
type is decided by `Ty.rounds`.

Where the layout exists and its size is below `2 ^ 64`, nothing else overflows while an
initializer is written: every offset that is computed lies within the global, and the
image is never longer than the longest list of bytes.
-/

namespace InstSelect.Lowering

open IR (ValueId Ty Constant)
open Machine (Image)

/-! ## Writing an initializer -/

variable {alloc : Machine.Allocator} {a b stride : UInt64} {n : Nat}

theorem reserve_noOverflow (i : Image) (count : Nat) : NoOverflow (i.reserve count) := by
  unfold Image.reserve
  split
  · exact .ok _
  · split
    · exact fun _ h => by cases h
    · exact .ask _

theorem appendZeros_noOverflow (i : Image) (count : UInt64) :
    NoOverflow (i.appendZeros count) :=
  (reserve_noOverflow i _).bind fun _ _ => .ok _

theorem appendData_noOverflow (i : Image) (bytes : List UInt8) :
    NoOverflow (i.appendData bytes) :=
  (reserve_noOverflow i _).bind fun _ _ => .ok _

variable {m : IR.Module} {abi : Abi} {i : Image} {ty : Ty} {v : ValueId}
  {size start stop : UInt64}

theorem addU64_of_lt (h : a.toNat + b.toNat < UInt64.size) :
    Word.addU64 a b = .ok (a + b) := if_pos h

theorem mulU64_of_lt (h : a.toNat * b.toNat < UInt64.size) :
    Word.mulU64 a b = .ok (a * b) := if_pos h

theorem padTo_noOverflow (i : Image) (stop : UInt64) : NoOverflow (padTo i stop) := by
  refine (NoOverflow.require _ _).bind fun _ _ => ?_
  split
  · exact (appendZeros_noOverflow i _).bind fun _ _ => .ok _
  · exact .ok _

theorem padFrom_noOverflow (h : start.toNat + size.toNat < UInt64.size) (i : Image) :
    NoOverflow (padFrom start size i) :=
  (NoOverflow.ofWord (addU64_of_lt h)).bind fun stop _ => padTo_noOverflow i stop

/-- A relocation ends within the word. -/
theorem appendPointer_noOverflow (hi : i.Held) (symbol : String) :
    NoOverflow (appendPointer i symbol) := by
  refine (appendZeros_noOverflow i pointerSize).bind fun r hr => ?_
  obtain ⟨-, hoffset, -, -⟩ := Image.appendZeros_eq_ok hi hr
  have hend : r.1.toNat + (8 : UInt64).toNat < UInt64.size := by
    have hle := hi.le
    have hmax : Image.maxSize = 2 ^ 63 - 1 := rfl
    rw [hoffset, hi.toNat_size]
    simp only [UInt64.size]
    have height : (8 : UInt64).toNat = 8 := rfl
    omega
  exact (NoOverflow.ofWord (addU64_of_lt hend)).bind fun _ _ =>
    (NoOverflow.require _ _).bind fun _ _ => (NoOverflow.ask _).bind fun _ _ => .ok _

theorem appendScalar_noOverflow (i : Image) (v : ValueId) (ty : Ty) (size : UInt64)
    (c : Constant) :
    NoOverflow (appendScalar i v ty size c) := by
  have hzeros : NoOverflow (do pure (← i.appendZeros size).2) :=
    (appendZeros_noOverflow i size).bind fun _ _ => .ok _
  have hdata : ∀ bytes : List UInt8, NoOverflow (do pure (← i.appendData bytes).2) :=
    fun bytes =>
    (appendData_noOverflow i bytes).bind fun _ _ => .ok _
  cases c with
  | null | zero | undef => exact hzeros
  | int n => exact hdata _
  | float x => cases ty <;> exact hdata _
  | bytes data => exact (NoOverflow.require _ _).bind fun _ _ => hdata data
  | aggregate elements => exact .violate _

theorem appendLeaf_noOverflow (hi : i.Held) (v : ValueId) (ty : Ty) (size : UInt64)
    (kind : IR.ValueKind) :
    NoOverflow (appendLeaf m abi i v ty size kind) := by
  cases kind with
  | constant c => exact appendScalar_noOverflow i v ty size c
  | function func =>
    refine (function_noOverflow m func).bind fun f _ => ?_
    exact (symbolName_noOverflow abi f.name).bind fun symbol _ =>
      appendPointer_noOverflow hi symbol
  | global global =>
    exact (global_noOverflow m global).bind fun g _ => appendPointer_noOverflow hi g.name
  | _ => exact .violate _

/-- A constant written as a leaf, padded to its size. -/
theorem paddedLeaf_noOverflow (hi : i.Held) (h : i.data.size + size.toNat < UInt64.size)
    (kind : IR.ValueKind) :
    NoOverflow (do padFrom i.size size (← appendLeaf m abi i v ty size kind)) := by
  refine (appendLeaf_noOverflow hi v ty size kind).bind fun j _ => padFrom_noOverflow ?_ j
  rw [hi.toNat_size]
  exact h

/-- The start of an element is a word if the end of the one before it is. -/
theorem elementStart_of_lt (h : start.toNat + stride.toNat * n < UInt64.size) :
    ∃ offset, elementStart start stride n = .ok offset := by
  have hword : (UInt64.ofNat n).toNat ≤ n := by
    rw [UInt64.toNat_ofNat']
    exact Nat.mod_le ..
  have hle := Nat.mul_le_mul_left stride.toNat hword
  have hmul :=
    mulU64_of_lt (Nat.lt_of_le_of_lt hle (Nat.lt_of_le_of_lt (Nat.le_add_left ..) h))
  have hadd : start.toNat + (stride * UInt64.ofNat n).toNat < UInt64.size := by
    rw [mulU64_eq_ok hmul]
    exact Nat.lt_of_le_of_lt (Nat.add_le_add_left hle _) h
  exact ⟨_, bind_eq_ok.mpr ⟨_, hmul, addU64_of_lt hadd⟩⟩

/-- Elements one after the other, if none of them overflows where its end is a word. -/
theorem appendElements_noOverflow {element : Ty} {elements : List ValueId}
    (hwrite : ∀ v i, i.Held → i.data.size + stride.toNat < UInt64.size →
      NoOverflow (appendConstant m abi element v i)) (hi : i.Held)
    (hstride : element.size = .ok stride)
    (hsize : i.data.size = start.toNat + stride.toNat * n)
    (hend : start.toNat + stride.toNat * (n + elements.length) < UInt64.size) :
    NoOverflow ((elements.zipIdx n).foldlM (appendElement m abi element start stride)
      i) := by
  induction elements generalizing i n with
  | nil => exact .ok i
  | cons v rest ih =>
    have hnext : n + (v :: rest).length = n + 1 + rest.length := by
      rw [List.length_cons]
      omega
    rw [hnext] at hend
    have hrest := Nat.mul_le_mul_left stride.toNat (Nat.le_add_right (n + 1) rest.length)
    rw [Nat.mul_succ] at hrest
    rw [List.zipIdx_cons, List.foldlM_cons]
    refine NoOverflow.bind ?_ fun j hj => ?_
    · have hstart : start.toNat + stride.toNat * n < UInt64.size := by omega
      obtain ⟨offset, hoffset⟩ := elementStart_of_lt hstart
      refine (NoOverflow.ofWord hoffset).bind fun offset hoffset =>
        (padTo_noOverflow i offset).bind fun padded hpad => ?_
      obtain ⟨hgrows, hpadded⟩ := padTo_grows hi hpad
      rw [elementStart_of_size hi hsize (ofWord_eq_ok.mp hoffset)] at hpadded
      exact hwrite v padded hgrows.held (by omega)
    · obtain ⟨-, -, -, -, -, hsmall, hsize'⟩ := appendElement_size hi hstride hsize hj
      exact ih hsmall hsize' hend

end InstSelect.Lowering

namespace InstSelect.IR

/-- The members of an aggregate can be counted with a word. -/
def Module.Countable (m : Module) : Prop :=
  ∀ v ∈ m.values, ∀ elements, v.kind = .constant (.aggregate elements) →
    elements.length < UInt64.size

theorem Module.Countable.length_lt {m : Module} {v : ValueId} {data : Value}
    {elements : List ValueId} (hm : m.Countable) (hv : m.value v = .ok data)
    (hkind : data.kind = .constant (.aggregate elements)) :
    elements.length < UInt64.size := by
  unfold Module.value at hv
  split at hv
  · next found hfound =>
    cases hv
    exact hm data (Array.mem_of_getElem? hfound) elements hkind
  · cases hv

/-- Members end before the last of them does. -/
theorem starts_within (packed : Bool) (fields : List Ty) (b : Nat) :
    List.Forall₂ (fun (field : Ty) offset => offset + field.span.size ≤
      Span.stopOf packed b (Ty.spans fields)) fields
      (Span.starts packed b (Ty.spans fields)) := by
  induction fields generalizing b with
  | nil => exact .nil
  | cons field rest ih =>
    refine .cons ?_ (ih _)
    exact Span.le_stopOf (Ty.isAlignment_spans rest) packed _

end InstSelect.IR

namespace InstSelect.Lowering

open IR (ValueId Ty Span)
open Machine (Image)

variable {e : Failure} {align : UInt32}

section

variable {alloc : Machine.Allocator} {m : IR.Module} {abi : Abi} {i : Image} {ty : Ty}
  {v : ValueId} {size start stop : UInt64}

/-- The members of a struct lie within it. -/
theorem offsets_within {name : Option String} {fields : List Ty} {packed : Bool}
    {layout : IR.StructLayout} (hlayout : Ty.structLayout packed fields = .ok layout)
    (hend : start.toNat + (Ty.struct name fields packed).span.size < UInt64.size) :
    List.Forall₂ (fun (field : Ty) (offset : UInt64) => start.toNat + offset.toNat +
      field.span.size < UInt64.size) fields layout.offsets := by
  rw [Ty.structLayout_eq name fields packed] at hlayout
  split at hlayout
  · cases hlayout
    have hpos := (Span.isAlignment_alignOf (Ty.isAlignment_spans fields) packed).pos
    have hlast : Span.stopOf packed 0 (Ty.spans fields) ≤
        (Ty.struct name fields packed).span.size :=
      IR.le_roundUp hpos _
    refine List.forall₂_map_right_iff.mpr ((IR.starts_within packed fields 0).imp
      fun field offset hle => ?_)
    rw [Word.toNat_clamp]
    omega
  · cases hlayout

/-- The elements of an array lie within it. -/
theorem allElements_noOverflow {element : Ty} {elements : List ValueId}
    (hwrite : ∀ v i, i.Held → i.data.size + element.span.size < UInt64.size →
      NoOverflow (appendConstant m abi element v i))
    (hi : i.Held) (hrounds : element.rounds = true)
    (hend : i.data.size + element.span.size * elements.length < UInt64.size) :
    NoOverflow (elements.zipIdx.foldlM
      (appendElement m abi element i.size (Word.clamp element.span.size)) i) := by
  cases elements with
  | nil => exact .ok i
  | cons first rest =>
    -- One element is no longer than all of them, so that the stride is not cut off.
    have hone : element.span.size ≤ element.span.size * (first :: rest).length :=
      Nat.le_mul_of_pos_right _ (Nat.succ_pos _)
    have hstride : (Word.clamp element.span.size).toNat = element.span.size :=
      Word.toNat_clamp_of_lt (by omega)
    apply appendElements_noOverflow _ hi (IR.size_of_rounds hrounds).1
    · rw [hi.toNat_size]
      rfl
    · rw [hi.toNat_size, hstride, Nat.zero_add]
      exact hend
    · intro v j hj hroom
      rw [hstride] at hroom
      exact hwrite v j hj hroom

/--
Writing an initializer does not overflow where the end of what is written is a word.
-/
theorem append_noOverflow (alloc : Machine.Allocator) (hm : m.Countable) (abi : Abi) :
    (∀ ty v i, i.Held → ty.rounds = true → i.data.size + ty.span.size < UInt64.size →
      NoOverflow (appendConstant m abi ty v i)) ∧
    ∀ start fields elements offsets i, i.Held → Ty.allRound fields = true →
      List.Forall₂ (fun (field : Ty) (offset : UInt64) => start.toNat + offset.toNat +
        field.span.size < UInt64.size) fields offsets →
      NoOverflow (appendMembers m abi start fields elements offsets i) := by
  have hsize : ∀ {ty : Ty} {n : Nat}, ty.rounds = true → n + ty.span.size < UInt64.size →
      ty.size = .ok (Word.clamp ty.span.size) ∧
      n + (Word.clamp ty.span.size).toNat < UInt64.size := by
    intro ty n hrounds hend
    rw [Word.toNat_clamp_of_lt (by omega)]
    exact ⟨(IR.size_of_rounds hrounds).1, hend⟩
  apply appendConstant.mutual_induct
  case case1 =>
    intro name fields packed v i _ ih hi hrounds hend
    obtain ⟨hsized, hlt⟩ := hsize hrounds hend
    have hall : Ty.allRound fields = true := (Bool.and_eq_true _ _ ▸ hrounds).1
    rw [appendConstant, hsized]
    refine (NoOverflow.ok _).bind fun size hsize =>
      (value_noOverflow m v).bind fun data hdata => ?_
    cases hsize
    split
    · refine (NoOverflow.require _ _).bind fun _ _ => ?_
      have hlayout := Ty.structLayout_eq name fields packed
      rw [if_pos hrounds] at hlayout
      refine (NoOverflow.ofWord hlayout).bind fun layout hlayout => ?_
      refine (ih _ layout hi hall ?_).bind fun j _ => padFrom_noOverflow ?_ j
      · apply offsets_within (ofWord_eq_ok.mp hlayout)
        rw [hi.toNat_size]
        exact hend
      · rw [hi.toNat_size]
        exact hlt
    · exact paddedLeaf_noOverflow hi hlt _
  case case2 =>
    intro element length v i ih hi hrounds hend
    obtain ⟨hsized, hlt⟩ := hsize hrounds hend
    have hinner : element.rounds = true := hrounds
    have hstride := (IR.size_of_rounds hinner).1
    rw [appendConstant, hsized]
    refine (NoOverflow.ok _).bind fun size hsize =>
      (value_noOverflow m v).bind fun data hdata => ?_
    cases hsize
    split
    · next elements hkind =>
      refine (NoOverflow.require _ _).bind fun _ hcount =>
        (NoOverflow.ofWord hstride).bind fun stride hstride' => ?_
      cases (ofWord_eq_ok.mp hstride').symm.trans hstride
      refine NoOverflow.bind ?_ fun j _ => padFrom_noOverflow ?_ j
      · have hlength : (UInt64.ofNat elements.length).toNat = elements.length :=
          UInt64.toNat_ofNat_of_lt' (hm.length_lt hdata hkind)
        rw [of_decide_eq_true (require_eq_ok.mp hcount)] at hlength
        refine allElements_noOverflow (fun v j hj => ih (v, 0) j hj hinner) hi hinner ?_
        rw [← hlength]
        exact hend
      · rw [hi.toNat_size]
        exact hlt
    · exact paddedLeaf_noOverflow hi hlt _
  case case3 =>
    intro ty v i hstruct harray hi hrounds hend
    obtain ⟨hsized, hlt⟩ := hsize hrounds hend
    rw [appendConstant, hsized]
    · refine (NoOverflow.ok _).bind fun size hsize =>
        (value_noOverflow m v).bind fun data _ => ?_
      cases hsize
      exact paddedLeaf_noOverflow hi hlt _
    · exact hstruct
    · exact harray
  case case4 =>
    intro start field fields element elements offset offsets i ihfirst ihrest hi
      hall hwithin
    obtain ⟨hrounds, hrest⟩ := (Bool.and_eq_true _ _).mp hall
    cases hwithin with
    | cons hfirst hwithin =>
      have hadd : start.toNat + offset.toNat < UInt64.size := by omega
      have hstop := addU64_of_lt hadd
      rw [appendMembers, hstop]
      refine (NoOverflow.ok _).bind fun stop hstop' =>
        (padTo_noOverflow i stop).bind fun padded hpad => ?_
      cases hstop'
      obtain ⟨hgrows, hsize⟩ := padTo_grows hi hpad
      refine (ihfirst padded hgrows.held hrounds ?_).bind fun written hwritten => ?_
      · rw [hsize, addU64_eq_ok hstop]
        exact hfirst
      · have hfilled := (appendConstant_fills hgrows.held hwritten).grows
        exact ihrest written hfilled.held hrest hwithin
  case case5 =>
    intro fields start elements offsets i hend hi _ _
    rw [appendMembers_end hend]
    exact .ok i

/-! ## Refused globals -/

/-- A global that is all zero: it has no initializer, or one without contents. -/
def IsBlank (m : IR.Module) (g : IR.Global) : Prop :=
  ∀ init ∈ g.initializer, ∃ data c, m.value init = .ok data ∧ data.kind = .constant c ∧
    (c = .null ∨ c = .zero ∨ c = .undef)

variable {g : IR.Global} {env : Env} {s : State} {gid : IR.GlobalId} {n : Nat}

/-- What appending reports if memory does not hold the bytes. -/
theorem reserve_refused (h : ¬ alloc.Holds (i.data.size + n)) (hi : i.Held) :
    ∃ cause, i.reserve n = .error (.allocation cause) := by
  cases hreserve : i.reserve n with
  | ok u => exact absurd (hi.of_reserve hreserve) h
  | error e =>
    unfold Image.reserve Machine.Allocator.ask at hreserve
    split at hreserve
    · cases hreserve
    · split at hreserve
      · cases hreserve
        exact ⟨_, rfl⟩
      · split at hreserve
        · cases hreserve
        · cases hreserve
          exact ⟨_, rfl⟩

/-- The size of a type comes first, whatever is written. -/
theorem appendConstant_of_size (h : ty.size = .error .add) (v : ValueId) (i : Image) :
    appendConstant m abi ty v i = .error (.overflow .add) := by
  cases ty <;> simp only [appendConstant, h] <;> rfl

/-- A leaf that cannot be written. -/
theorem appendConstant_of_leaf {data : IR.Value} (hsize : ty.size = .ok size)
    (hv : m.value v = .ok data)
    (hkind : ∀ elements, data.kind ≠ .constant (.aggregate elements))
    (hleaf : appendLeaf m abi i v ty size data.kind = .error e) :
    appendConstant m abi ty v i = .error e := by
  have hbefore : ∀ {rest : UInt64 → IR.Value → Except Failure Image},
    rest size data = .error e →
      (do rest (← Failure.ofWord ty.size) (← m.value v)) = .error e := by
    intro rest hrest
    exact bind_eq_error.mpr
      (.inr ⟨size, ofWord_eq_ok.mpr hsize, bind_eq_error.mpr (.inr ⟨data, hv, hrest⟩)⟩)
  have hwritten : (do padFrom i.size size (← appendLeaf m abi i v ty size data.kind)) =
      .error e :=
    bind_eq_error.mpr (.inl hleaf)
  cases ty with
  | struct | array =>
    rw [appendConstant]
    apply hbefore
    split
    · next elements helements => exact absurd helements (hkind elements)
    · exact hwritten
  | _ =>
    simp only [appendConstant]
    exact hbefore hwritten

/-- The image of a global whose layout overflows. -/
theorem imageOf_of_not_rounds (h : g.ty.rounds = false) :
    imageOf m abi g = .error (.overflow .add) := by
  have hsize : g.ty.size = .error .add := by rw [Ty.size_eq, h]; rfl
  have halign : g.ty.align = .error .add := by rw [Ty.align_eq, h]; rfl
  unfold imageOf
  cases g.alignment with
  | none =>
    rw [halign]
    rfl
  | some align =>
    cases g.initializer with
    | none =>
      rw [hsize]
      rfl
    | some init => exact appendConstant_of_size hsize init _

theorem imageOf_of_initializer {init : ValueId} (haligned : Aligned g align)
    (hinit : g.initializer = some init) :
    imageOf m abi g = appendConstant m abi g.ty init (.empty g.name align) := by
  unfold imageOf
  rcases haligned with h | ⟨h, halign⟩
  · rw [h, hinit]
    rfl
  · rw [h, hinit, halign]
    rfl

theorem imageOf_of_none (haligned : Aligned g align) (hinit : g.initializer = none)
    (hsize : g.ty.size = .ok size) :
    imageOf m abi g = (do pure (← (Image.empty g.name align).appendZeros size).2) := by
  unfold imageOf
  rcases haligned with h | ⟨h, halign⟩
  · rw [h, hinit, hsize]
    rfl
  · rw [h, hinit, halign, hsize]
    rfl

/-- Memory does not hold a global that is all zero and too large. -/
theorem imageOf_blank (hrounds : g.ty.rounds = true)
    (hlarge : ¬ alloc.Holds g.ty.span.size)
    (hblank : IsBlank m g) : ∃ cause, imageOf m abi g = .error (.allocation cause) := by
  obtain ⟨hsize, -⟩ := IR.size_of_rounds hrounds
  obtain ⟨align, haligned⟩ := exists_aligned hsize
  -- Cutting the size off does not make it small.
  have hcut : ¬ alloc.Holds ((Image.empty g.name align).data.size +
      (Word.clamp g.ty.span.size).toNat) := by
    show ¬ alloc.Holds (0 + _)
    rw [Word.toNat_clamp, Nat.zero_add]
    rcases Nat.le_total g.ty.span.size (UInt64.size - 1) with hword | hword
    · rwa [Nat.min_eq_left hword]
    · rw [Nat.min_eq_right hword]
      rintro (hzero | ⟨hle, -⟩)
      · cases hzero
      · exact absurd hle (by decide)
  obtain ⟨cause, hreserve⟩ := reserve_refused hcut (Image.held_empty _ _)
  have hcause : (Image.empty g.name align).appendZeros (Word.clamp g.ty.span.size) =
      .error (.allocation cause) := bind_eq_error.mpr (.inl hreserve)
  refine ⟨cause, ?_⟩
  cases hinit : g.initializer with
  | none =>
    rw [imageOf_of_none haligned hinit hsize]
    exact bind_eq_error.mpr (.inl hcause)
  | some init =>
    obtain ⟨data, c, hv, hkind, hc⟩ := hblank init hinit
    rw [imageOf_of_initializer haligned hinit]
    apply appendConstant_of_leaf hsize hv
    · intro elements hother
      cases hkind.symm.trans hother
      rcases hc with hc | hc | hc <;> cases hc
    · rw [hkind]
      rcases hc with rfl | rfl | rfl <;> exact bind_eq_error.mpr (.inl hcause)

/--
A global whose end is a word has an image, or fails for another reason than a word that is
too short.
-/
theorem imageOf_noOverflow (hm : m.Countable) (hrounds : g.ty.rounds = true)
    (hsize : g.ty.span.size < UInt64.size) :
    NoOverflow (imageOf m abi g) := by
  obtain ⟨hsized, -⟩ := IR.size_of_rounds hrounds
  obtain ⟨align, haligned⟩ := exists_aligned hsized
  cases hinit : g.initializer with
  | none =>
    rw [imageOf_of_none haligned hinit hsized]
    exact (appendZeros_noOverflow _ _).bind fun _ _ => .ok _
  | some init =>
    rw [imageOf_of_initializer haligned hinit]
    apply (append_noOverflow alloc hm abi).1 g.ty init _ (Image.held_empty g.name align)
      hrounds
    show 0 + _ < _
    omega

theorem lowerGlobal_fails (hg : env.module.global gid = .ok g)
    (himage : @imageOf env.allocator env.module env.abi g = .error e) :
    Fails (lowerGlobal gid) env s e s := by
  refine fails_bind.mpr (.inr ⟨env, s, runs_read.mpr ⟨rfl, rfl⟩, ?_⟩)
  refine fails_bind.mpr (.inr ⟨g, s, runs_check.mpr ⟨hg, rfl⟩, fails_bind.mpr (.inl ?_)⟩)
  rw [himage]
  rfl

/--
Layouts saturate, except for rounding up. A type has a layout if no rounding in it leaves
the word, and then all sizes and offsets in it are cut off at the largest word; otherwise
the layout overflows, and with it any global of the type. A global of a type with a layout
that memory does not hold is refused: as an allocation, if it is all zero, and never by an
overflow, if its end is a word.
-/
theorem layouts_saturate (ty : Ty) :
    (ty.size = if ty.rounds then .ok (Word.clamp ty.span.size) else .error .add) ∧
    (ty.align = if ty.rounds then .ok (UInt32.ofNat ty.span.align) else .error .add) ∧
    (∀ name fields packed, ty = .struct name fields packed →
      Ty.structLayout packed fields =
      if ty.rounds then
        .ok ⟨Word.clamp ty.span.size, UInt32.ofNat ty.span.align,
          (Span.starts packed 0 (Ty.spans fields)).map Word.clamp⟩
      else .error .add) ∧
    ∀ env s gid g, env.module.global gid = .ok g → g.ty = ty →
      (ty.rounds = false → Fails (lowerGlobal gid) env s (.overflow .add) s) ∧
      (ty.rounds = true → ¬ env.allocator.Holds ty.span.size →
        (IsBlank env.module g →
          ∃ cause, Fails (lowerGlobal gid) env s (.allocation cause) s) ∧
        (env.module.Countable → ty.span.size < UInt64.size →
          ∃ e, Fails (lowerGlobal gid) env s e s ∧
            ∀ operation, e ≠ .overflow operation)) := by
  refine ⟨ty.size_eq, ty.align_eq, ?_, ?_⟩
  · rintro name fields packed rfl
    exact Ty.structLayout_eq name fields packed
  · rintro env s gid g hg rfl
    refine ⟨fun h => lowerGlobal_fails hg (imageOf_of_not_rounds h),
      fun hrounds hlarge => ⟨?_, ?_⟩⟩
    · intro hblank
      obtain ⟨cause, hcause⟩ := imageOf_blank hrounds hlarge hblank
      exact ⟨cause, lowerGlobal_fails hg hcause⟩
    · intro hm hlt
      have hcalm := @imageOf_noOverflow env.allocator env.module env.abi g hm hrounds hlt
      cases himage : @imageOf env.allocator env.module env.abi g with
      | ok img =>
        obtain ⟨-, hsmall, ⟨size, hsize, hend⟩, -⟩ := imageOf_draws himage
        cases hsize.symm.trans (IR.size_of_rounds hrounds).1
        rw [Word.toNat_clamp_of_lt hlt] at hend
        exact absurd (hend ▸ hsmall) hlarge
      | error e =>
        refine ⟨e, lowerGlobal_fails hg himage, ?_⟩
        rintro operation rfl
        exact hcalm operation himage

end

/-- Rows of numbers, more than a word can count the bytes of. -/
def rows : Ty := .array (.array (.int .w32) 0x8000000000000000) 8

/-- Half of what a word can count, and a number behind it. -/
def halfFields : List Ty := [.array .bool 0x8000000000000000, .int .w32]

/-- Two globals that no memory holds: one of them empty, the other with contents. -/
def vault : IR.Module where
  name := "m"
  values := #[⟨.ptr rows, .global ⟨0⟩⟩,
    ⟨.array .bool 0x8000000000000000, .constant .zero⟩,
    ⟨.int .w32, .constant (.int 7)⟩,
    ⟨.struct none halfFields false, .constant (.aggregate [⟨1⟩, ⟨2⟩])⟩,
    ⟨.ptr (.struct none halfFields false), .global ⟨1⟩⟩]
  insts := #[]
  blocks := #[]
  functions := #[]
  globals := #[⟨"rows", rows, none, none, ⟨0⟩⟩,
    ⟨"half", .struct none halfFields false, some ⟨3⟩, some 16, ⟨4⟩⟩]

theorem vault_refused :
    rows.size = .ok 0xFFFFFFFFFFFFFFFF ∧ rows.span.size = 2 ^ 68 ∧
      (∃ cause, Fails (lowerGlobal ⟨0⟩) ⟨vault, .win64⟩ (.initial "m") (.allocation cause)
        (.initial "m")) ∧
      Ty.size (.struct none halfFields false) = .ok 0x8000000000000004 ∧
      ∃ e, Fails (lowerGlobal ⟨1⟩) ⟨vault, .win64⟩ (.initial "m") e (.initial "m") ∧
        ∀ operation, e ≠ .overflow operation := by
  obtain ⟨hrows, -, -, hglobal⟩ := layouts_saturate rows
  obtain ⟨hhalf, -, -, hglobal'⟩ := layouts_saturate (.struct none halfFields false)
  have hblank : IsBlank vault ⟨"rows", rows, none, none, ⟨0⟩⟩ := fun _ h => nomatch h
  have hcountable : vault.Countable := by
    intro v hv elements hkind
    simp only [vault, ← Array.mem_toList_iff, List.mem_cons, List.not_mem_nil,
      or_false] at hv
    rcases hv with rfl | rfl | rfl | rfl | rfl <;> cases hkind
    decide
  refine ⟨hrows, rfl, ?_, hhalf, ?_⟩
  · obtain ⟨-, hrefused⟩ := hglobal ⟨vault, .win64⟩ (.initial "m") ⟨0⟩ _ rfl rfl
    exact (hrefused rfl (by decide)).1 hblank
  · obtain ⟨-, hrefused⟩ := hglobal' ⟨vault, .win64⟩ (.initial "m") ⟨1⟩ _ rfl rfl
    exact (hrefused rfl (by decide)).2 hcountable (by decide)

/-- A byte less than a word can count, and a number behind it. -/
def brimFields : List Ty := [.array (.int .w8) 0xFFFFFFFFFFFFFFFF, .int .w32]

/-- A global of this type. -/
def brim : IR.Module where
  name := "m"
  values := #[⟨.ptr (.struct none brimFields false), .global ⟨0⟩⟩]
  insts := #[]
  blocks := #[]
  functions := #[]
  globals := #[⟨"g", .struct none brimFields false, none, none, ⟨0⟩⟩]

/--
The number would have to start at `2 ^ 64`, so that the layout overflows before memory is
asked for.
-/
theorem brim_overflows :
    Ty.size (.struct none brimFields false) = .error .add ∧
      Ty.align (.struct none brimFields false) = .error .add ∧
      Ty.structLayout false brimFields = .error .add ∧
        lowerModule brim .win64 = .error (.overflow .add) :=
  ⟨rfl, rfl, rfl, rfl⟩

end InstSelect.Lowering
