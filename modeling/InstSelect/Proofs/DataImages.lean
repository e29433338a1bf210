import InstSelect.Lowering.Initializer
import InstSelect.Proofs.Runs

/-!
# Where constants lie in a data image

Writing initial data only ever appends: bytes, and relocations that cover eight of the new
bytes each. So every constant that an initializer is made of has a stretch of the finished
image to itself, and relocations lie in one such stretch or another.

`HasPart` says which constant a path of positions leads to in nested aggregates, and
`Writing` says from which image the writer goes on when it comes to it. What the writer
appends for the constant stays where it is put.
-/

namespace InstSelect.Machine

variable {bytes : List UInt8} {rs' rs : List Relocation} {r : UInt64 × Image}
  {count : Nat} {u : Unit} {data : Array UInt8}

/--
Relocations in order, none before `start`, each clear of the next, and all ending by
`stop`.
-/
def Spread : Nat → List Relocation → Nat → Prop
  | start, [], stop => start ≤ stop
  | start, r :: rs, stop => start ≤ r.offset.toNat ∧ Spread (r.offset.toNat + 8) rs stop

namespace Spread

variable {a b c : Nat} {rs : List Relocation}

theorem le (h : Spread a rs b) : a ≤ b := by
  induction rs generalizing a with
  | nil => exact h
  | cons r rs ih =>
    have := ih h.2
    have := h.1
    omega

theorem append (h : Spread a rs b) (h' : Spread b rs' c) : Spread a (rs ++ rs') c := by
  induction rs generalizing a with
  | nil =>
    cases rs' with
    | nil => exact Nat.le_trans h h'
    | cons r rs' => exact ⟨Nat.le_trans h h'.1, h'.2⟩
  | cons r rs ih => exact ⟨h.1, ih h.2⟩

/-- Each relocation lies in the range. -/
theorem within {r : Relocation} (h : Spread a rs b) (hr : r ∈ rs) :
    a ≤ r.offset.toNat ∧ r.offset.toNat + 8 ≤ b := by
  induction rs generalizing a with
  | nil => cases hr
  | cons r' rs ih =>
    rcases List.mem_cons.mp hr with rfl | hr
    · exact ⟨h.1, h.2.le⟩
    · have := ih h.2 hr
      have := h.1
      omega

end Spread

/--
The allocator has so many bytes for one object. None are asked for where none are needed.
-/
def Allocator.Holds (alloc : Allocator) (count : Nat) : Prop :=
  count = 0 ∨ count ≤ Image.maxSize ∧ alloc.refusal? (.bytes count) = none

instance (alloc : Allocator) (count : Nat) : Decidable (alloc.Holds count) :=
  inferInstanceAs (Decidable (_ ∨ _))

namespace Image

theorem maxSize_lt : maxSize < UInt64.size := by decide

variable {alloc : Allocator} {i j k : Image}

/-- Memory holds the image, so that its size does not wrap around. -/
def Held [alloc : Allocator] (i : Image) : Prop := alloc.Holds i.data.size

theorem Held.le (h : i.Held) : i.data.size ≤ maxSize := by
  obtain hzero | ⟨hle, -⟩ := h
  · omega
  · exact hle

theorem Held.toNat_size (h : i.Held) : i.size.toNat = i.data.size :=
  UInt64.toNat_ofNat_of_lt (Nat.lt_of_le_of_lt h.le maxSize_lt)

theorem held_empty (name : String) (align : UInt32) : (empty name align).Held := .inl rfl

/-- `j` is `i` with some bytes and relocations appended. -/
structure Appended (i j : Image) (bytes : List UInt8) (rs : List Relocation) : Prop where
  name : j.name = i.name
  data : j.data.toList = i.data.toList ++ bytes
  relocations : j.relocations = i.relocations ++ rs
  spread : Spread i.data.size rs j.data.size

theorem Appended.size (h : Appended i j bytes rs) :
    j.data.size = i.data.size + bytes.length := by
  rw [← Array.length_toList, h.data, List.length_append, Array.length_toList]

theorem Appended.trans {bytes' : List UInt8} (h : Appended i j bytes rs)
    (h' : Appended j k bytes' rs') :
    Appended i k (bytes ++ bytes') (rs ++ rs') where
  name := h'.name.trans h.name
  data := by rw [h'.data, h.data, List.append_assoc]
  relocations := by rw [h'.relocations, h.relocations, List.append_assoc]
  spread := h.spread.append h'.spread

/-- What writing does to an image. -/
structure Grows [Allocator] (i j : Image) : Prop where
  held : j.Held
  appended : ∃ bytes rs, Appended i j bytes rs

namespace Grows

theorem refl (h : i.Held) : i.Grows i :=
  ⟨h, [], [], rfl, (List.append_nil _).symm, (List.append_nil _).symm, Nat.le_refl _⟩

theorem trans (h : i.Grows j) (h' : j.Grows k) : i.Grows k := by
  obtain ⟨bytes, rs, hij⟩ := h.appended
  obtain ⟨bytes', rs', hjk⟩ := h'.appended
  exact ⟨h'.held, _, _, hij.trans hjk⟩

theorem size_le (h : i.Grows j) : i.data.size ≤ j.data.size := by
  obtain ⟨bytes, rs, hij⟩ := h.appended
  exact hij.spread.le

end Grows

/-! ## Appending -/

theorem reserve_eq_ok :
    i.reserve count = .ok u ↔ count = 0 ∨ alloc.Holds (i.data.size + count) := by
  unfold reserve Allocator.Holds
  split
  · next hzero => simp [hzero]
  · next hzero =>
    split
    · next hlarge => simp [hzero, Nat.not_le.mpr hlarge]
    · next hlarge => simp [hzero, Nat.not_lt.mp hlarge, Lowering.ask_eq_ok]

/-- Wherever memory was granted, it holds what is appended. -/
theorem Held.of_reserve (hi : i.Held) (h : i.reserve count = .ok u) :
    alloc.Holds (i.data.size + count) := by
  obtain rfl | hholds := reserve_eq_ok.mp h
  · exact hi
  · exact hholds

theorem appended_of_data (hdata : data.toList = i.data.toList ++ bytes) :
    Appended i { i with data } bytes [] := by
  have hsize : data.size = i.data.size + bytes.length := by
    rw [← Array.length_toList, hdata, List.length_append, Array.length_toList]
  refine ⟨rfl, hdata, (List.append_nil _).symm, ?_⟩
  show i.data.size ≤ data.size
  omega

theorem grows_of_data (bytes : List UInt8)
    (hroom : alloc.Holds (i.data.size + bytes.length))
    (hdata : data.toList = i.data.toList ++ bytes) : i.Grows { i with data } := by
  have happended := appended_of_data hdata
  refine ⟨?_, bytes, [], happended⟩
  show alloc.Holds data.size
  rw [happended.size]
  exact hroom

theorem appendData_grows (hi : i.Held) (h : i.appendData bytes = .ok r) :
    i.Grows r.2 := by
  simp only [appendData, Lowering.bind_eq_ok, Lowering.pure_eq_ok] at h
  obtain ⟨_, hroom, rfl⟩ := h
  exact grows_of_data bytes (hi.of_reserve hroom) (by simp)

theorem appendZeros_eq_ok {count : UInt64} (hi : i.Held)
    (h : i.appendZeros count = .ok r) :
    i.Grows r.2 ∧ r.1 = i.size ∧ r.2.data.size = i.data.size + count.toNat ∧
      r.2.relocations = i.relocations := by
  simp only [appendZeros, Lowering.bind_eq_ok, Lowering.pure_eq_ok] at h
  obtain ⟨_, hroom, rfl⟩ := h
  refine ⟨grows_of_data (List.replicate count.toNat 0)
    (by simpa using hi.of_reserve hroom) (by simp), rfl, ?_, rfl⟩
  simp

end Image

end InstSelect.Machine

namespace InstSelect.Lowering

open IR (ValueId Ty Constant)
open Machine (Image Allocator)

variable {alloc : Allocator} {m : IR.Module} {abi : Abi} {i j k : Image}
  {ty element : Ty} {v : ValueId} {size start stop stride a b c : UInt64}
  {fields : List Ty} {entries : List (ValueId × Nat)} {elements : List ValueId}
  {offsets : List UInt64} {entry : ValueId × Nat} {packed : Bool}

/-- Sums that fit are exact. -/
theorem addU64_eq_ok (h : Word.addU64 a b = .ok c) : c.toNat = a.toNat + b.toNat := by
  unfold Word.addU64 at h
  split at h
  · next hlt =>
    cases h
    rw [UInt64.toNat_add]
    exact Nat.mod_eq_of_lt hlt
  · cases h

/-- Products that fit are exact. -/
theorem mulU64_eq_ok (h : Word.mulU64 a b = .ok c) : c.toNat = a.toNat * b.toNat := by
  unfold Word.mulU64 at h
  split at h
  · next hlt =>
    cases h
    rw [UInt64.toNat_mul]
    exact Nat.mod_eq_of_lt hlt
  · cases h

/-- Padding ends at the given offset. -/
theorem padTo_grows (hi : i.Held) (h : padTo i stop = .ok j) :
    i.Grows j ∧ j.data.size = stop.toNat := by
  simp only [padTo, bind_eq_ok, require_eq_ok, decide_eq_true_eq] at h
  obtain ⟨-, hle, h⟩ := h
  have hle' := UInt64.le_iff_toNat_le.mp hle
  rw [hi.toNat_size] at hle'
  split at h
  · simp only [bind_eq_ok, pure_eq_ok] at h
    obtain ⟨r, hr, rfl⟩ := h
    obtain ⟨hgrows, -, hsize, -⟩ := Image.appendZeros_eq_ok hi hr
    refine ⟨hgrows, ?_⟩
    rw [hsize, UInt64.toNat_sub_of_le _ _ hle, hi.toNat_size]
    omega
  · next hlt =>
    cases pure_eq_ok.mp h
    rw [UInt64.lt_iff_toNat_lt, hi.toNat_size] at hlt
    exact ⟨.refl hi, by omega⟩

theorem appendPointer_grows {symbol : String} (hi : i.Held)
    (h : appendPointer i symbol = .ok j) :
    i.Grows j := by
  simp only [appendPointer, Image.addRelocation, bind_eq_ok, pure_eq_ok] at h
  obtain ⟨⟨offset, w⟩, hzeros, _, -, _, -, _, -, rfl⟩ := h
  obtain ⟨hgrows, rfl, hsize, hrelocations⟩ := Image.appendZeros_eq_ok hi hzeros
  obtain ⟨bytes, rs, happended⟩ := hgrows.appended
  refine ⟨hgrows.held, bytes, [⟨i.size, symbol⟩], happended.name, happended.data, ?_, ?_⟩
  · exact congrArg (· ++ _) hrelocations
  · refine ⟨Nat.le_of_eq hi.toNat_size.symm, ?_⟩
    show i.size.toNat + 8 ≤ w.data.size
    rw [hsize, hi.toNat_size]
    exact Nat.le_refl _

theorem appendScalar_grows {c : Constant} (hi : i.Held)
    (h : appendScalar i v ty size c = .ok j) :
    i.Grows j := by
  have hzeros : ∀ {n : UInt64}, (do pure (← i.appendZeros n).2) = .ok j → i.Grows j := by
    intro n h
    simp only [bind_eq_ok, pure_eq_ok] at h
    obtain ⟨r, hr, rfl⟩ := h
    exact (Image.appendZeros_eq_ok hi hr).1
  have hdata : ∀ {bytes : List UInt8}, (do pure (← i.appendData bytes).2) = .ok j →
      i.Grows j := by
    intro bytes h
    simp only [bind_eq_ok, pure_eq_ok] at h
    obtain ⟨r, hr, rfl⟩ := h
    exact Image.appendData_grows hi hr
  cases c with
  | null => exact hzeros h
  | zero => exact hzeros h
  | undef => exact hzeros h
  | int n => exact hdata h
  | float x => cases ty <;> exact hdata h
  | bytes data =>
    obtain ⟨-, -, h⟩ := bind_eq_ok.mp h
    exact hdata h
  | aggregate elements => exact absurd h violate_ne_ok

theorem appendLeaf_grows {kind : IR.ValueKind} (hi : i.Held)
    (h : appendLeaf m abi i v ty size kind = .ok j) : i.Grows j := by
  cases kind with
  | constant c => exact appendScalar_grows hi h
  | function func =>
    obtain ⟨f, -, h⟩ := bind_eq_ok.mp h
    obtain ⟨symbol, -, h⟩ := bind_eq_ok.mp h
    exact appendPointer_grows hi h
  | global global =>
    obtain ⟨g, -, h⟩ := bind_eq_ok.mp h
    exact appendPointer_grows hi h
  | _ => exact absurd h violate_ne_ok

/-! ## Whole constants -/

/-- Writing a value as a type appended as many bytes as the type has. -/
structure Fills [Allocator] (ty : Ty) (i j : Image) : Prop where
  grows : i.Grows j
  size : ∃ size, ty.size = .ok size ∧ j.data.size = i.data.size + size.toNat

theorem padFrom_grows (hi : i.Held) (h : padFrom start size i = .ok j) : i.Grows j := by
  obtain ⟨stop, -, h⟩ := bind_eq_ok.mp h
  exact (padTo_grows hi h).1

theorem padFrom_fills (hi : i.Held) (hsize : ty.size = .ok size) (hgrows : i.Grows k)
    (h : padFrom i.size size k = .ok j) : Fills ty i j := by
  simp only [padFrom, bind_eq_ok, ofWord_eq_ok] at h
  obtain ⟨stop, hstop, h⟩ := h
  obtain ⟨hpad, hend⟩ := padTo_grows hgrows.held h
  refine ⟨hgrows.trans hpad, size, hsize, ?_⟩
  rw [hend, addU64_eq_ok hstop, hi.toNat_size]

/-- One element of an array, at its offset. -/
def appendElement [Allocator] (m : IR.Module) (abi : Abi) (element : Ty)
    (start stride : UInt64) (i : Image)
    (entry : ValueId × Nat) : Except Failure Image := do
  let offset ← Failure.ofWord (elementStart start stride entry.2)
  appendConstant m abi element entry.1 (← padTo i offset)

/--
How a value is written: part by part if its type has parts and it is an aggregate, else as
a leaf.
-/
inductive Written (alloc : Allocator) (m : IR.Module) (abi : Abi) (v : ValueId)
    (i j : Image) : Ty → Prop
  | members {name : Option String} {fields : List Ty} {packed : Bool} {size : UInt64}
      {data : IR.Value} {elements : List ValueId} {layout : IR.StructLayout} {k : Image}
      (sized : Ty.size (.struct name fields packed) = .ok size)
      (value : m.value v = .ok data)
      (aggregate : data.kind = .constant (.aggregate elements))
      (count : elements.length = fields.length)
      (placed : Ty.structLayout packed fields = .ok layout)
      (parts : appendMembers m abi i.size fields elements layout.offsets i = .ok k)
      (padded : padFrom i.size size k = .ok j) :
      Written alloc m abi v i j (.struct name fields packed)
  | elements {element : Ty} {length size stride : UInt64} {data : IR.Value}
      {elements : List ValueId} {k : Image}
      (sized : Ty.size (.array element length) = .ok size) (value : m.value v = .ok data)
      (aggregate : data.kind = .constant (.aggregate elements))
      (count : .ofNat elements.length = length) (step : element.size = .ok stride)
      (parts : elements.zipIdx.foldlM (appendElement m abi element i.size stride) i =
        .ok k)
      (padded : padFrom i.size size k = .ok j) :
      Written alloc m abi v i j (.array element length)
  | leaf {ty : Ty} {size : UInt64} {data : IR.Value} {k : Image}
      (sized : ty.size = .ok size) (value : m.value v = .ok data)
      (leaf : appendLeaf m abi i v ty size data.kind = .ok k)
      (padded : padFrom i.size size k = .ok j) : Written alloc m abi v i j ty

theorem written_of_appendConstant (h : appendConstant m abi ty v i = .ok j) :
    Written alloc m abi v i j ty := by
  cases ty with
  | struct name fields packed =>
    simp only [appendConstant, bind_eq_ok, ofWord_eq_ok] at h
    obtain ⟨size, hsize, data, hdata, h⟩ := h
    split at h
    · next elements hkind =>
      simp only [bind_eq_ok, ofWord_eq_ok, require_eq_ok, decide_eq_true_eq] at h
      obtain ⟨-, hcount, layout, hlayout, k, hparts, hpad⟩ := h
      exact .members hsize hdata hkind hcount hlayout hparts hpad
    · obtain ⟨k, hleaf, hpad⟩ := bind_eq_ok.mp h
      exact .leaf hsize hdata hleaf hpad
  | array element length =>
    simp only [appendConstant, bind_eq_ok, ofWord_eq_ok] at h
    obtain ⟨size, hsize, data, hdata, h⟩ := h
    split at h
    · next elements hkind =>
      simp only [bind_eq_ok, ofWord_eq_ok, require_eq_ok, decide_eq_true_eq] at h
      obtain ⟨-, hcount, stride, hstride, k, hparts, hpad⟩ := h
      exact .elements hsize hdata hkind hcount hstride hparts hpad
    · obtain ⟨k, hleaf, hpad⟩ := bind_eq_ok.mp h
      exact .leaf hsize hdata hleaf hpad
  | _ =>
    simp only [appendConstant, bind_eq_ok, ofWord_eq_ok] at h
    obtain ⟨size, hsize, data, hdata, k, hleaf, hpad⟩ := h
    exact .leaf hsize hdata hleaf hpad

/-- What writing members does, given what writing each of them does. -/
theorem appendMembers_cons {field : Ty} {element : ValueId} {offset : UInt64} :
    appendMembers m abi start (field :: fields) (element :: elements)
    (offset :: offsets) i = .ok j ↔
      ∃ stop padded k, Word.addU64 start offset = .ok stop ∧ padTo i stop = .ok padded ∧
        appendConstant m abi field element padded = .ok k ∧
        appendMembers m abi start fields elements offsets k = .ok j := by
  simp only [appendMembers, bind_eq_ok, ofWord_eq_ok]
  constructor
  · rintro ⟨stop, hstop, padded, hpad, k, hk, hrest⟩
    exact ⟨stop, padded, k, hstop, hpad, hk, hrest⟩
  · rintro ⟨stop, padded, k, hstop, hpad, hk, hrest⟩
    exact ⟨stop, hstop, padded, hpad, k, hk, hrest⟩

/-- Nothing is written where members, their types or their offsets have come to an end. -/
theorem appendMembers_end
    (hend : ∀ (field : Ty) (fields' : List Ty) (element : ValueId)
      (elements' : List ValueId)
      (offset : UInt64) (offsets' : List UInt64), fields = field :: fields' →
        elements = element :: elements' → offsets = offset :: offsets' → False) :
    appendMembers m abi start fields elements offsets i = .ok i := by
  rw [appendMembers]
  exact hend

theorem appendElement_eq_ok :
    appendElement m abi element start stride i entry = .ok j ↔
      ∃ offset padded, elementStart start stride entry.2 = .ok offset ∧
        padTo i offset = .ok padded ∧
        appendConstant m abi element entry.1 padded = .ok j := by
  simp only [appendElement, bind_eq_ok, ofWord_eq_ok]
  constructor
  · rintro ⟨offset, hoffset, padded, hpad, h⟩
    exact ⟨offset, padded, hoffset, hpad, h⟩
  · rintro ⟨offset, padded, hoffset, hpad, h⟩
    exact ⟨offset, hoffset, padded, hpad, h⟩

theorem foldlM_cons_eq_ok {f : Image → ValueId × Nat → Except Failure Image} :
    (entry :: entries).foldlM f i = .ok j ↔
      ∃ k, f i entry = .ok k ∧ entries.foldlM f k = .ok j := by
  rw [List.foldlM_cons, bind_eq_ok]

/-- Elements one after the other, if writing one of them only makes the image grow. -/
theorem appendElements_grows_of
    (hwrite : ∀ v i, i.Held → ∀ j, appendConstant m abi element v i = .ok j → i.Grows j)
    (hi : i.Held)
    (h : entries.foldlM (appendElement m abi element start stride) i = .ok j) :
    i.Grows j := by
  induction entries generalizing i with
  | nil =>
    cases h
    exact .refl hi
  | cons entry entries ih =>
    obtain ⟨k, hk, h⟩ := foldlM_cons_eq_ok.mp h
    obtain ⟨offset, padded, -, hpad, hk⟩ := appendElement_eq_ok.mp hk
    have hpadded := (padTo_grows hi hpad).1
    have hgrows := hpadded.trans (hwrite entry.1 padded hpadded.held k hk)
    exact hgrows.trans (ih hgrows.held h)

/--
A constant takes as many bytes as its type has, and members only make the image grow.
-/
theorem append_grows (alloc : Allocator) (m : IR.Module) (abi : Abi) :
    (∀ ty v i, i.Held → ∀ j, appendConstant m abi ty v i = .ok j → Fills ty i j) ∧
    ∀ start fields elements offsets i, i.Held → ∀ j,
      appendMembers m abi start fields elements offsets i = .ok j → i.Grows j := by
  have hleaf : ∀ {ty v} {i j k : Image} {size : UInt64} {kind : IR.ValueKind}, i.Held →
      ty.size = .ok size → appendLeaf m abi i v ty size kind = .ok k →
      padFrom i.size size k = .ok j → Fills ty i j := fun hi hsize hk hpad =>
    padFrom_fills hi hsize (appendLeaf_grows hi hk) hpad
  apply appendConstant.mutual_induct
  case case1 =>
    intro name fields packed v i _ ih hi j h
    cases written_of_appendConstant h with
    | members sized _ _ _ _ parts padded =>
      exact padFrom_fills hi sized (ih _ _ hi _ parts) padded
    | leaf sized _ leaf padded => exact hleaf hi sized leaf padded
  case case2 =>
    intro element length v i ih hi j h
    cases written_of_appendConstant h with
    | elements sized _ _ _ _ parts padded =>
      have hparts :=
        appendElements_grows_of (fun v i hi j h => (ih (v, 0) i hi j h).grows) hi parts
      exact padFrom_fills hi sized hparts padded
    | leaf sized _ leaf padded => exact hleaf hi sized leaf padded
  case case3 =>
    intro ty v i hstruct harray hi j h
    cases written_of_appendConstant h with
    | members => exact absurd rfl (hstruct _ _ _)
    | elements => exact absurd rfl (harray _ _)
    | leaf sized _ leaf padded => exact hleaf hi sized leaf padded
  case case4 =>
    intro start field fields element elements offset offsets i ihfirst ihrest hi j h
    obtain ⟨stop, padded, k, -, hpad, hk, hrest⟩ := appendMembers_cons.mp h
    have hpadded := (padTo_grows hi hpad).1
    have hfirst := (ihfirst padded hpadded.held k hk).grows
    exact (hpadded.trans hfirst).trans (ihrest k hfirst.held j hrest)
  case case5 =>
    intro fields start elements offsets i hend hi j h
    cases (appendMembers_end hend).symm.trans h
    exact .refl hi

theorem appendConstant_fills (hi : i.Held) (h : appendConstant m abi ty v i = .ok j) :
    Fills ty i j :=
  (append_grows alloc m abi).1 ty v i hi j h

theorem appendMembers_grows (hi : i.Held)
    (h : appendMembers m abi start fields elements offsets i = .ok j) : i.Grows j :=
  (append_grows alloc m abi).2 start fields elements offsets i hi j h

theorem appendElements_grows (hi : i.Held)
    (h : entries.foldlM (appendElement m abi element start stride) i = .ok j) :
    i.Grows j :=
  appendElements_grows_of (fun _ _ hi _ h => (appendConstant_fills hi h).grows) hi h

/-! ## Layouts -/

theorem extents_length {es : List IR.Extent} (h : Ty.extents fields = .ok es) :
    es.length = fields.length := by
  induction fields generalizing es with
  | nil =>
    cases h
    rfl
  | cons field fields ih =>
    simp only [Ty.extents, bind_eq_ok, pure_eq_ok] at h
    obtain ⟨first, -, rest, hrest, rfl⟩ := h
    rw [List.length_cons, ih hrest, List.length_cons]

theorem place_length {p q : IR.Placement} {e : IR.Extent} (h : p.place packed e = .ok q) :
    q.offsets.length = p.offsets.length + 1 := by
  simp only [IR.Placement.place, bind_eq_ok, pure_eq_ok] at h
  obtain ⟨offset, -, rfl⟩ := h
  exact List.length_append

/-- Every member has an offset. -/
theorem offsets_length {layout : IR.StructLayout}
    (h : Ty.structLayout packed fields = .ok layout) :
    layout.offsets.length = fields.length := by
  simp only [Ty.structLayout, IR.StructLayout.ofExtents, IR.Placement.finish, bind_eq_ok,
    pure_eq_ok] at h
  obtain ⟨es, hes, placed, hplaced, size, -, rfl⟩ := h
  have hfold : ∀ {es : List IR.Extent} {p q : IR.Placement},
      es.foldlM (IR.Placement.place packed) p = .ok q →
        q.offsets.length = p.offsets.length + es.length := by
    intro es
    induction es with
    | nil =>
      intro p q h
      cases h
      rfl
    | cons e es ih =>
      intro p q h
      rw [List.foldlM_cons, bind_eq_ok] at h
      obtain ⟨r, hr, h⟩ := h
      rw [ih h, place_length hr, List.length_cons]
      omega
  show placed.offsets.length = _
  rw [hfold hplaced, ← extents_length hes]
  exact Nat.zero_add _

end InstSelect.Lowering

namespace InstSelect.IR

/--
The part that a path of positions leads to, through aggregates viewed as their types.
-/
inductive Module.HasPart (m : Module) : Ty → ValueId → List Nat → Ty → ValueId → Prop
  | here (ty : Ty) (v : ValueId) : HasPart m ty v [] ty v
  | member {name : Option String} {fields : List Ty} {packed : Bool} {v part e : ValueId}
      {data : Value} {elements : List ValueId} {n : Nat} {path : List Nat} {field E : Ty}
      (value : m.value v = .ok data)
      (aggregate : data.kind = .constant (.aggregate elements))
      (field_eq : fields[n]? = some field) (part_eq : elements[n]? = some part)
      (rest : HasPart m field part path E e) :
      HasPart m (.struct name fields packed) v (n :: path) E e
  | element {element E : Ty} {length : UInt64} {v part e : ValueId} {data : Value}
      {elements : List ValueId} {n : Nat} {path : List Nat} (value : m.value v = .ok data)
      (aggregate : data.kind = .constant (.aggregate elements))
      (part_eq : elements[n]? = some part) (rest : HasPart m element part path E e) :
      HasPart m (.array element length) v (n :: path) E e

end InstSelect.IR

namespace InstSelect.Lowering

open IR (ValueId Ty)
open Machine (Image Allocator)

variable {alloc : Allocator} {m : IR.Module} {abi : Abi} {i j k : Image} {ty E : Ty}
  {v e part : ValueId} {path : List Nat} {start : UInt64} {elements : List ValueId}
  {n : Nat}

/-! ## Coming to a part -/

/--
While `v` is written as a type onto an image, the writer comes to the part `e` of type `E`
at a path: all parts before it have been written, and it goes on from the last image.
-/
inductive Writing [Allocator] (m : IR.Module) (abi : Abi) :
    Ty → ValueId → Image → List Nat → Ty → ValueId → Image → Prop
  | here (ty : Ty) (v : ValueId) (i : Image) : Writing m abi ty v i [] ty v i
  | member {name : Option String} {fields : List Ty} {packed : Bool} {v part e : ValueId}
      {data : IR.Value} {elements : List ValueId} {n : Nat} {path : List Nat}
      {field E : Ty} {layout : IR.StructLayout} {offset stop : UInt64}
      {i k padded last : Image} (value : m.value v = .ok data)
      (aggregate : data.kind = .constant (.aggregate elements))
      (field_eq : fields[n]? = some field) (part_eq : elements[n]? = some part)
      (placed : Ty.structLayout packed fields = .ok layout)
      (before : appendMembers m abi i.size (fields.take n) (elements.take n)
        layout.offsets i = .ok k)
      (offset_eq : layout.offsets[n]? = some offset)
      (stop_eq : Word.addU64 i.size offset = .ok stop)
      (padding : padTo k stop = .ok padded)
      (rest : Writing m abi field part padded path E e last) :
      Writing m abi (.struct name fields packed) v i (n :: path) E e last
  | element {element E : Ty} {length stride stop : UInt64} {v part e : ValueId}
      {data : IR.Value} {elements : List ValueId} {n : Nat} {path : List Nat}
      {i k padded last : Image} (value : m.value v = .ok data)
      (aggregate : data.kind = .constant (.aggregate elements))
      (part_eq : elements[n]? = some part) (step : element.size = .ok stride)
      (before : (elements.take n).zipIdx.foldlM
        (appendElement m abi element i.size stride) i = .ok k)
      (stop_eq : elementStart i.size stride n = .ok stop)
      (padding : padTo k stop = .ok padded)
      (rest : Writing m abi element part padded path E e last) :
      Writing m abi (.array element length) v i (n :: path) E e last

/-- Writing members comes to each of them. -/
theorem appendMembers_at {fields : List Ty} {offsets : List UInt64} {field : Ty}
    (hlength : offsets.length = fields.length) (hfield : fields[n]? = some field)
    (hpart : elements[n]? = some part)
    (h : appendMembers m abi start fields elements offsets i = .ok j) :
    ∃ k offset stop padded last, offsets[n]? = some offset ∧
      appendMembers m abi start (fields.take n) (elements.take n) offsets i = .ok k ∧
      Word.addU64 start offset = .ok stop ∧ padTo k stop = .ok padded ∧
      appendConstant m abi field part padded = .ok last ∧
      appendMembers m abi start (fields.drop (n + 1)) (elements.drop (n + 1))
      (offsets.drop (n + 1))
        last = .ok j := by
  induction n generalizing fields elements offsets i with
  | zero =>
    cases fields with
    | nil => cases hfield
    | cons f fields =>
      cases elements with
      | nil => cases hpart
      | cons e elements =>
        cases offsets with
        | nil => cases hlength
        | cons o offsets =>
          cases hfield
          cases hpart
          obtain ⟨stop, padded, last, hstop, hpad, hlast, hrest⟩ :=
            appendMembers_cons.mp h
          exact ⟨i, o, stop, padded, last, rfl, rfl, hstop, hpad, hlast, hrest⟩
  | succ n ih =>
    cases fields with
    | nil => cases hfield
    | cons f fields =>
      cases elements with
      | nil => cases hpart
      | cons e elements =>
        cases offsets with
        | nil => cases hlength
        | cons o offsets =>
          obtain ⟨stop, padded, last, hstop, hpad, hlast, hrest⟩ :=
            appendMembers_cons.mp h
          obtain ⟨k, offset, stop', padded', last', hoffset, hk, hfound⟩ :=
            ih (Nat.succ.inj hlength) hfield hpart hrest
          exact ⟨k, offset, stop', padded', last', hoffset,
            appendMembers_cons.mpr ⟨stop, padded, last, hstop, hpad, hlast, hk⟩, hfound⟩

/-- Writing elements comes to each of them. -/
theorem appendElements_at {element : Ty} {stride : UInt64}
    (hpart : elements[n]? = some part)
    (h : elements.zipIdx.foldlM (appendElement m abi element start stride) i = .ok j) :
    ∃ k stop padded last,
      (elements.take n).zipIdx.foldlM (appendElement m abi element start stride) i =
        .ok k ∧
      elementStart start stride n = .ok stop ∧ padTo k stop = .ok padded ∧
      appendConstant m abi element part padded = .ok last ∧
      ((elements.drop (n + 1)).zipIdx (n + 1)).foldlM
        (appendElement m abi element start stride) last =
        .ok j := by
  obtain ⟨hlt, heq⟩ := List.getElem?_eq_some_iff.mp hpart
  have hsplit : elements.zipIdx =
      (elements.take n).zipIdx ++
      (part, n) :: (elements.drop (n + 1)).zipIdx (n + 1) := by
    conv_lhs => rw [← List.take_append_drop n elements,
      List.drop_eq_getElem_cons hlt, heq]
    rw [List.zipIdx_append, List.zipIdx_cons, List.length_take,
      Nat.min_eq_left (Nat.le_of_lt hlt), Nat.zero_add]
  rw [hsplit, List.foldlM_append, bind_eq_ok] at h
  obtain ⟨k, hk, h⟩ := h
  obtain ⟨last, hlast, hrest⟩ := foldlM_cons_eq_ok.mp h
  obtain ⟨stop, padded, hstop, hpad, hlast⟩ := appendElement_eq_ok.mp hlast
  exact ⟨k, stop, padded, last, hk, hstop, hpad, hlast, hrest⟩

theorem Writing.grows (h : Writing m abi ty v i path E e k) (hi : i.Held) :
    i.Grows k := by
  induction h with
  | here => exact .refl hi
  | member value aggregate field_eq part_eq placed before offset_eq stop_eq padding
      rest ih =>
    have hbefore := appendMembers_grows hi before
    have hpadded := (padTo_grows hbefore.held padding).1
    exact (hbefore.trans hpadded).trans (ih hpadded.held)
  | element value aggregate part_eq step before stop_eq padding rest ih =>
    have hbefore := appendElements_grows hi before
    have hpadded := (padTo_grows hbefore.held padding).1
    exact (hbefore.trans hpadded).trans (ih hpadded.held)

/-- Aggregates are no leaves. -/
theorem appendLeaf_aggregate {size : UInt64} {kind : IR.ValueKind}
    (hkind : kind = .constant (.aggregate elements)) :
    ¬ appendLeaf m abi i v ty size kind = .ok j := by
  subst hkind
  exact violate_ne_ok

/--
Every part of a constant that was written was come to, and its stretch of the image was
kept.
-/
theorem writing_of_hasPart (hp : m.HasPart ty v path E e) (hi : i.Held)
    (h : appendConstant m abi ty v i = .ok j) :
    ∃ k l, Writing m abi ty v i path E e k ∧ appendConstant m abi E e k = .ok l ∧
      l.Grows j := by
  induction hp generalizing i j with
  | here ty v =>
    exact ⟨i, j, .here ty v i, h, .refl (appendConstant_fills hi h).grows.held⟩
  | member value aggregate field_eq part_eq rest ih =>
    cases written_of_appendConstant h with
    | leaf _ value' leaf _ =>
      cases value.symm.trans value'
      exact absurd leaf (appendLeaf_aggregate aggregate)
    | members sized value' aggregate' count placed parts padded =>
      cases value.symm.trans value'
      cases aggregate.symm.trans aggregate'
      obtain ⟨k, offset, stop, image, last, hoffset, hk, hstop, hpad, hlast, hrest⟩ :=
        appendMembers_at (offsets_length placed) field_eq part_eq parts
      have himage := (padTo_grows (appendMembers_grows hi hk).held hpad).1.held
      have hlast' := (appendConstant_fills himage hlast).grows.held
      have hparts := appendMembers_grows hlast' hrest
      obtain ⟨k', l, hwriting, hl, hgrows⟩ := ih himage hlast
      exact ⟨k', l, .member value aggregate field_eq part_eq placed hk hoffset hstop hpad
        hwriting, hl, hgrows.trans (hparts.trans (padFrom_grows hparts.held padded))⟩
  | element value aggregate part_eq rest ih =>
    cases written_of_appendConstant h with
    | leaf _ value' leaf _ =>
      cases value.symm.trans value'
      exact absurd leaf (appendLeaf_aggregate aggregate)
    | elements sized value' aggregate' count step parts padded =>
      cases value.symm.trans value'
      cases aggregate.symm.trans aggregate'
      obtain ⟨k, stop, image, last, hk, hstop, hpad, hlast, hrest⟩ :=
        appendElements_at part_eq parts
      have himage := (padTo_grows (appendElements_grows hi hk).held hpad).1.held
      have hlast' := (appendConstant_fills himage hlast).grows.held
      have hparts := appendElements_grows hlast' hrest
      obtain ⟨k', l, hwriting, hl, hgrows⟩ := ih himage hlast
      exact ⟨k', l, .element value aggregate part_eq step hk hstop hpad hwriting, hl,
        hgrows.trans (hparts.trans (padFrom_grows hparts.held padded))⟩

end InstSelect.Lowering
