import Mathlib.Order.Bounds.Basic
import InstSelect.IR.Layout
import InstSelect.Proofs.Runs

/-!
# Layouts over unbounded numbers

Layouts are computed in words: products and sums of sizes stop at the largest word, and
rounding up fails where it would leave the word. Here the same layouts are described over
the natural numbers, where nothing stops and nothing fails, and the two are compared.
Whether a layout exists is decided by the unbounded one: it does unless one of its
roundings, at an alignment above 1, reaches `2 ^ 64`. If it exists, every number in it is
the unbounded one, cut off at the largest word.

The laws of the layout are then laws of the unbounded one. A type `Fits` if no size in it
and no end of a member, rounded up to 8, reaches `2 ^ 64`; for such a type nothing is cut
off.
-/

namespace InstSelect.Word

/-- The word of a number, or the largest word if there is none. -/
def clamp (n : Nat) : UInt64 := UInt64.ofNat (min n (UInt64.size - 1))

theorem toNat_clamp (n : Nat) : (clamp n).toNat = min n (UInt64.size - 1) := by
  apply UInt64.toNat_ofNat_of_lt
  simp only [UInt64.size]
  omega

theorem toNat_clamp_of_lt {n : Nat} (h : n < UInt64.size) : (clamp n).toNat = n := by
  rw [toNat_clamp]
  omega

/-- Saturating sums do not notice that their terms were cut off. -/
theorem satAdd_clamp (x y : Nat) : satAdd (clamp x) (clamp y) = clamp (x + y) := by
  apply UInt64.toNat_inj.mp
  rw [toNat_satAdd, toNat_clamp, toNat_clamp, toNat_clamp]
  omega

/-- Nor do saturating products, not even by 0. -/
theorem satMul_clamp (x : Nat) (n : UInt64) :
    satMul (clamp x) n = clamp (x * n.toNat) := by
  apply UInt64.toNat_inj.mp
  rw [toNat_satMul, toNat_clamp, toNat_clamp]
  rcases Nat.eq_zero_or_pos n.toNat with hzero | hpos
  · rw [hzero, Nat.mul_zero, Nat.mul_zero]
  · rcases Nat.le_total x (UInt64.size - 1) with hx | hx
    · rw [Nat.min_eq_left hx]
    · have hlarge := Nat.le_mul_of_pos_right x hpos
      have hlargest := Nat.le_mul_of_pos_right (UInt64.size - 1) hpos
      rw [Nat.min_eq_right hx]
      omega

end InstSelect.Word

namespace InstSelect.IR

/-! ## Rounding up -/

/-- The least multiple of `a` that is not below `n`. -/
def roundUp (n a : Nat) : Nat := (n + (a - 1)) / a * a

theorem isLeast_roundUp {a : Nat} (ha : 0 < a) (n : Nat) :
    IsLeast {k | a ∣ k ∧ n ≤ k} (roundUp n a) := by
  have hdiv := Nat.div_add_mod (n + (a - 1)) a
  have hmod := Nat.mod_lt (n + (a - 1)) ha
  rw [Nat.mul_comm] at hdiv
  refine ⟨⟨Dvd.intro_left _ rfl, ?_⟩, ?_⟩
  · unfold roundUp
    omega
  · rintro k ⟨⟨c, rfl⟩, hk⟩
    have hlt : (n + (a - 1)) / a < c + 1 := by
      rw [Nat.div_lt_iff_lt_mul ha, Nat.succ_mul, Nat.mul_comm c a]
      omega
    rw [roundUp, Nat.mul_comm a c]
    exact Nat.mul_le_mul_right a (Nat.lt_succ_iff.mp hlt)

theorem le_roundUp {a : Nat} (ha : 0 < a) (n : Nat) : n ≤ roundUp n a :=
  (isLeast_roundUp ha n).1.2

theorem dvd_roundUp (n a : Nat) : a ∣ roundUp n a := Dvd.intro_left _ rfl

/-- Rounding up is the next multiple of `a` after what is too much of `n`. -/
theorem roundUp_eq {a : Nat} (ha : 0 < a) (n : Nat) :
    roundUp n a = if n % a = 0 then n else n + (a - n % a) := by
  have hdiv := Nat.div_add_mod n a
  have hmod := Nat.mod_lt n ha
  split
  · next hzero =>
    apply Nat.le_antisymm
    · exact (isLeast_roundUp ha n).2 ⟨Nat.dvd_of_mod_eq_zero hzero, Nat.le_refl n⟩
    · exact le_roundUp ha n
  · next hrest =>
    have hnext : n + (a - n % a) = a * (n / a + 1) := by
      rw [Nat.mul_succ]
      omega
    apply Nat.le_antisymm
    · exact (isLeast_roundUp ha n).2 ⟨⟨_, hnext⟩, Nat.le_add_right ..⟩
    · obtain ⟨c, hc⟩ := dvd_roundUp n a
      have hle := le_roundUp ha n
      rw [hnext, hc]
      apply Nat.mul_le_mul_left
      -- A multiple below the next one would be `n` itself.
      by_contra hlt
      have hsmall := Nat.mul_le_mul_left a (show c ≤ n / a by omega)
      omega

/-- Rounding up in words, where the result is one. -/
theorem alignTo_eq {w : UInt64} (hw : 0 < w.toNat) (v : UInt64) :
    alignTo v w =
      if roundUp v.toNat w.toNat < UInt64.size then
        .ok (UInt64.ofNat (roundUp v.toNat w.toNat))
      else .error .add := by
  have hv := UInt64.toNat_lt v
  have hmod := Nat.mod_lt v.toNat hw
  have hself : UInt64.ofNat v.toNat = v := UInt64.ofNat_toNat
  have hone : w ≤ 1 ↔ w.toNat ≤ 1 := UInt64.le_iff_toNat_le
  have hrest : v % w = 0 ↔ v.toNat % w.toNat = 0 := by
    rw [← UInt64.toNat_inj, UInt64.toNat_mod]
    rfl
  have hgap : (w - v % w).toNat = w.toNat - v.toNat % w.toNat := by
    rw [UInt64.toNat_sub_of_le, UInt64.toNat_mod]
    rw [UInt64.le_iff_toNat_le, UInt64.toNat_mod]
    omega
  rw [roundUp_eq hw]
  unfold alignTo
  simp only [hone, hrest]
  split
  · next hle =>
    have hzero : v.toNat % w.toNat = 0 := by omega
    rw [if_pos hzero, if_pos hv, hself]
  · split
    · rw [hself]
    · rw [Word.addU64, hgap]
      split
      · rw [← hgap, UInt64.ofNat_add, hself, UInt64.ofNat_toNat]
      · rfl

/-- The alignments that occur. -/
def IsAlignment (a : Nat) : Prop := a = 1 ∨ a = 2 ∨ a = 4 ∨ a = 8

theorem IsAlignment.pos {a : Nat} (h : IsAlignment a) : 0 < a := by
  unfold IsAlignment at h
  omega

theorem IsAlignment.max {a b : Nat} (ha : IsAlignment a) (hb : IsAlignment b) :
    IsAlignment (max a b) := by
  unfold IsAlignment at *
  omega

/-- No alignment asks for more than the largest one. -/
theorem IsAlignment.roundUp_le {a : Nat} (ha : IsAlignment a) (n : Nat) :
    roundUp n a ≤ roundUp n 8 := by
  rcases ha with rfl | rfl | rfl | rfl <;> unfold roundUp <;> omega

/--
A number that was cut off is no multiple of an alignment above 1, and rounding it up
overflows too.
-/
theorem alignTo_clamp {w : UInt64} {a : Nat} (hw : w.toNat = a) (ha : IsAlignment a)
    (n : Nat) :
    alignTo (Word.clamp n) w =
      if a = 1 ∨ roundUp n a < UInt64.size then .ok (Word.clamp (roundUp n a))
      else .error .add := by
  rw [alignTo_eq (hw ▸ ha.pos), hw, Word.toNat_clamp]
  have hcases : (roundUp (min n (UInt64.size - 1)) a < UInt64.size ↔
    a = 1 ∨ roundUp n a < UInt64.size) ∧
      (roundUp (min n (UInt64.size - 1)) a < UInt64.size →
        roundUp (min n (UInt64.size - 1)) a = min (roundUp n a) (UInt64.size - 1)) := by
    simp only [UInt64.size, roundUp]
    rcases ha with rfl | rfl | rfl | rfl <;> omega
  simp only [← hcases.1]
  split
  · next hlt => rw [hcases.2 hlt, Word.clamp]
  · rfl

/-! ## Members one after the other -/

/-- Size and alignment over the natural numbers. -/
structure Span where
  size : Nat
  align : Nat
deriving DecidableEq, Repr

namespace Span

/-- The extent in words: the size is cut off at the largest one. -/
def clamped (e : Span) : Extent := ⟨Word.clamp e.size, UInt32.ofNat e.align⟩

/-- The alignment of a member within its struct. -/
def alignIn (packed : Bool) (e : Span) : Nat := if packed then 1 else e.align

/-- The places of members, if the first of them may stand at `stop`. -/
def starts (packed : Bool) : Nat → List Span → List Nat
  | _, [] => []
  | stop, e :: rest =>
    roundUp stop (e.alignIn packed) ::
      starts packed (roundUp stop (e.alignIn packed) + e.size) rest

/-- The end of the last of the members. -/
def stopOf (packed : Bool) : Nat → List Span → Nat
  | stop, [] => stop
  | stop, e :: rest => stopOf packed (roundUp stop (e.alignIn packed) + e.size) rest

/-- The largest alignment of members within their struct. -/
def alignOf (packed : Bool) (members : List Span) : Nat :=
  members.foldl (fun a e => max a (e.alignIn packed)) 1

def ofMembers (packed : Bool) (members : List Span) : Span :=
  ⟨roundUp (stopOf packed 0 members) (alignOf packed members), alignOf packed members⟩

/-- Rounding up to an alignment stays within a word, or is none. -/
def roundsTo (n a : Nat) : Bool := a = 1 ∨ roundUp n a < UInt64.size

/-- No rounding up of members leaves the word. -/
def roundsFrom (packed : Bool) : Nat → List Span → Bool
  | _, [] => true
  | stop, e :: rest =>
    roundsTo stop (e.alignIn packed) &&
      roundsFrom packed (roundUp stop (e.alignIn packed) + e.size) rest

/-- No rounding up in a struct leaves the word. -/
def membersRound (packed : Bool) (members : List Span) : Bool :=
  roundsFrom packed 0 members &&
    roundsTo (stopOf packed 0 members) (alignOf packed members)

variable {packed : Bool} {e : Span} {members : List Span} {stop a : Nat}

theorem isAlignment_alignIn (h : IsAlignment e.align) (packed : Bool) :
    IsAlignment (e.alignIn packed) := by
  cases packed with
  | true => exact .inl rfl
  | false => exact h

theorem isAlignment_foldl (h : ∀ e ∈ members, IsAlignment e.align) (packed : Bool)
    (ha : IsAlignment a) :
    IsAlignment (members.foldl (fun a e => max a (e.alignIn packed)) a) := by
  induction members generalizing a with
  | nil => exact ha
  | cons e rest ih =>
    rw [List.forall_mem_cons] at h
    exact ih h.2 (ha.max (isAlignment_alignIn h.1 packed))

theorem isAlignment_alignOf (h : ∀ e ∈ members, IsAlignment e.align) (packed : Bool) :
    IsAlignment (alignOf packed members) :=
  isAlignment_foldl h packed (.inl rfl)

/-- The alignment that the field loop rounds to. -/
theorem clamped_alignIn (packed : Bool) (e : Span) :
    (if packed then 1 else e.clamped.align) = UInt32.ofNat (e.alignIn packed) := by
  cases packed <;> rfl

theorem toNat_ofNat_toUInt64 (h : IsAlignment a) :
    (UInt32.ofNat a).toUInt64.toNat = a := by
  rcases h with rfl | rfl | rfl | rfl <;> rfl

theorem max_ofNat {b : Nat} (ha : IsAlignment a) (hb : IsAlignment b) :
    max (UInt32.ofNat a) (UInt32.ofNat b) = UInt32.ofNat (max a b) := by
  rcases ha with rfl | rfl | rfl | rfl <;> rcases hb with rfl | rfl | rfl | rfl <;> decide

/-- One member of the field loop. -/
theorem place_clamp {offsets : List UInt64} (he : IsAlignment e.align)
    (ha : IsAlignment a) (stop : Nat) :
    Placement.place packed ⟨Word.clamp stop, UInt32.ofNat a, offsets⟩ e.clamped =
      if roundsTo stop (e.alignIn packed) then
        .ok ⟨Word.clamp (roundUp stop (e.alignIn packed) + e.size),
          UInt32.ofNat (max a (e.alignIn packed)),
          offsets ++ [Word.clamp (roundUp stop (e.alignIn packed))]⟩
      else .error .add := by
  have hin := isAlignment_alignIn he packed
  unfold Placement.place
  simp only [clamped_alignIn, alignTo_clamp (toNat_ofNat_toUInt64 hin) hin, roundsTo,
    decide_eq_true_eq]
  split
  · show Except.ok _ = _
    rw [max_ofNat ha hin]
    show Except.ok (Placement.mk (Word.satAdd _ (Word.clamp e.size)) _ _) = _
    rw [Word.satAdd_clamp]
  · rfl

/-- The field loop. -/
theorem foldlM_place {offsets : List UInt64} (h : ∀ e ∈ members, IsAlignment e.align)
    (ha : IsAlignment a) :
    (members.map clamped).foldlM (Placement.place packed)
      ⟨Word.clamp stop, UInt32.ofNat a, offsets⟩ =
      if roundsFrom packed stop members then
        .ok ⟨Word.clamp (stopOf packed stop members),
          UInt32.ofNat (members.foldl (fun a e => max a (e.alignIn packed)) a),
          offsets ++ (starts packed stop members).map Word.clamp⟩
      else .error .add := by
  induction members generalizing stop a offsets with
  | nil =>
    rw [List.map_nil, List.foldlM_nil, starts, List.map_nil, List.append_nil]
    rfl
  | cons e rest ih =>
    rw [List.forall_mem_cons] at h
    rw [List.map_cons, List.foldlM_cons, place_clamp h.1 ha, roundsFrom]
    by_cases hround : roundsTo stop (e.alignIn packed) = true
    · rw [if_pos hround, hround, Bool.true_and]
      refine (ih h.2 (ha.max (isAlignment_alignIn h.1 packed))).trans ?_
      rw [List.append_assoc]
      rfl
    · rw [if_neg hround, eq_false_of_ne_true hround]
      rfl

theorem ofExtents_clamped (h : ∀ e ∈ members, IsAlignment e.align) :
    StructLayout.ofExtents packed (members.map clamped) =
      if membersRound packed members then
        .ok ⟨Word.clamp (ofMembers packed members).size,
          UInt32.ofNat (ofMembers packed members).align,
          (starts packed 0 members).map Word.clamp⟩
      else .error .add := by
  have halign := isAlignment_alignOf h packed
  have hloop := @foldlM_place packed members 0 1 [] h (.inl rfl)
  unfold StructLayout.ofExtents
  rw [show Placement.empty = ⟨Word.clamp 0, UInt32.ofNat 1, []⟩ from rfl, hloop,
    membersRound]
  by_cases hround : roundsFrom packed 0 members = true
  · rw [if_pos hround, hround, Bool.true_and]
    show Placement.finish ⟨_, UInt32.ofNat (alignOf packed members), _⟩ = _
    unfold Placement.finish
    simp only [alignTo_clamp (toNat_ofNat_toUInt64 halign) halign, roundsTo,
      decide_eq_true_eq]
    split <;> rfl
  · rw [if_neg hround, eq_false_of_ne_true hround]
    rfl

end Span

/-! ## Types -/

namespace Ty

mutual

/-- Size and alignment of a type over the natural numbers. -/
def span : Ty → Span
  | void | type => ⟨0, 1⟩
  | bool => ⟨1, 1⟩
  | int width | uint width => ⟨width.bits.toNat / 8, width.bits.toNat / 8⟩
  | f32 => ⟨4, 4⟩
  | f64 | ptr _ | function _ _ _ => ⟨8, 8⟩
  | array element length => ⟨element.span.size * length.toNat, element.span.align⟩
  | struct _ fields packed => .ofMembers packed (spans fields)

/-- Sizes and alignments of a list of types. -/
def spans : List Ty → List Span
  | [] => []
  | ty :: rest => ty.span :: spans rest

end

mutual

/--
No rounding up in the layout of a type leaves the word. What pointers lead to is not laid
out.
-/
def rounds : Ty → Bool
  | array element _ => element.rounds
  | struct _ fields packed => allRound fields && Span.membersRound packed (spans fields)
  | _ => true

/-- No rounding up in the layouts of some types leaves the word. -/
def allRound : List Ty → Bool
  | [] => true
  | ty :: rest => ty.rounds && allRound rest

end

mutual

theorem isAlignment_span : ∀ ty : Ty, IsAlignment ty.span.align
  | void | type | bool => .inl rfl
  | int width | uint width => by cases width <;> simp [span, IsAlignment, Width.bits]
  | f32 => .inr (.inr (.inl rfl))
  | f64 | ptr _ | function _ _ _ => .inr (.inr (.inr rfl))
  | array element _ => isAlignment_span element
  | struct _ fields packed => Span.isAlignment_alignOf (isAlignment_spans fields) packed

theorem isAlignment_spans : ∀ (tys : List Ty), ∀ e ∈ spans tys, IsAlignment e.align
  | [], _, h => nomatch h
  | ty :: rest, e, h => by
      rcases List.mem_cons.mp h with rfl | h
      · exact isAlignment_span ty
      · exact isAlignment_spans rest e h

end

/-- Sizes are multiples of the alignment. -/
theorem align_dvd_size : ∀ ty : Ty, ty.span.align ∣ ty.span.size
  | void | type | bool | f32 | f64 | ptr _ | function _ _ _ => by simp [span]
  | int _ | uint _ => Nat.dvd_refl _
  | array element _ => Nat.dvd_mul_right_of_dvd (align_dvd_size element) _
  | struct _ _ _ => dvd_roundUp _ _

mutual

/-- The extent of a type is its span, cut off at the largest word. -/
theorem extent_eq :
    ∀ ty : Ty, ty.extent = if ty.rounds then .ok ty.span.clamped else .error .add
  | void | type | bool | f32 | f64 | ptr _ | function _ _ _ => rfl
  | int width | uint width => by cases width <;> rfl
  | array element length => by
      rw [extent, extent_eq element, rounds]
      split
      · show Except.ok (Extent.mk (Word.satMul _ length) _) = _
        rw [Span.clamped, Word.satMul_clamp]
        rfl
      · rfl
  | struct name fields packed => by
      rw [extent, extents_eq fields, rounds]
      by_cases hround : allRound fields = true
      · rw [if_pos hround, hround, Bool.true_and]
        show StructLayout.ofExtents packed _ >>= _ = _
        rw [Span.ofExtents_clamped (isAlignment_spans fields)]
        split <;> rfl
      · rw [if_neg hround, eq_false_of_ne_true hround]
        rfl

theorem extents_eq : ∀ tys : List Ty,
    extents tys = if allRound tys then .ok ((spans tys).map Span.clamped) else .error .add
  | [] => rfl
  | ty :: rest => by
      rw [extents, extent_eq ty, extents_eq rest, allRound]
      cases ty.rounds <;> cases allRound rest <;> rfl

end

theorem size_eq (ty : Ty) :
    ty.size = if ty.rounds then .ok (Word.clamp ty.span.size) else .error .add := by
  rw [size, extent_eq ty]
  split <;> rfl

theorem align_eq (ty : Ty) :
    ty.align = if ty.rounds then .ok (UInt32.ofNat ty.span.align) else .error .add := by
  rw [align, extent_eq ty]
  split <;> rfl

/-- The layout of a struct is the unbounded one, cut off at the largest word. -/
theorem structLayout_eq (name : Option String) (fields : List Ty) (packed : Bool) :
    structLayout packed fields =
      if (struct name fields packed).rounds then
        .ok ⟨Word.clamp (struct name fields packed).span.size,
          UInt32.ofNat (struct name fields packed).span.align,
          (Span.starts packed 0 (spans fields)).map Word.clamp⟩
      else .error .add := by
  rw [structLayout, extents_eq fields, rounds]
  by_cases hround : allRound fields = true
  · rw [if_pos hround, hround, Bool.true_and]
    exact Span.ofExtents_clamped (isAlignment_spans fields)
  · rw [if_neg hround, eq_false_of_ne_true hround]
    rfl

end Ty

/-! ## The laws -/

/--
Where each member may start at the earliest, and behind the last of them where it ends.
-/
def stops (offsets : List Nat) (members : List Span) : List Nat :=
  0 :: List.zipWith (fun offset e => offset + e.size) offsets members

/--
The laws of a struct's layout: its members at their offsets, and the span of the whole.
-/
structure Arranged (packed : Bool) (members : List Span) (offsets : List Nat)
    (whole : Span) : Prop where
  /-- Every member has an offset. -/
  count : offsets.length = members.length
  /-- The first member stands at the start. -/
  first : ∀ offset ∈ offsets.head?, offset = 0
  /-- Each member stands as close to the one before it as its alignment permits. -/
  next : ∀ (i offset : Nat) (e : Span) (stop : Nat), offsets[i]? = some offset →
    members[i]? = some e →
    (stops offsets members)[i]? = some stop →
    IsLeast {k | e.alignIn packed ∣ k ∧ stop ≤ k} offset
  /--
  The whole is aligned as its most demanding member, if it is not packed and has one.
  -/
  align : if packed || members.isEmpty then whole.align =
    1 else IsGreatest {a | ∃ e ∈ members, e.align = a} whole.align
  /-- The whole ends as close to its last member as its alignment permits. -/
  size : ∀ stop, (stops offsets members)[members.length]? = some stop →
    IsLeast {k | whole.align ∣ k ∧ stop ≤ k} whole.size
  /-- Members do not overlap. -/
  disjoint : ∀ (i j offset offset' : Nat) (e : Span), i < j → offsets[i]? = some offset →
    members[i]? = some e →
    offsets[j]? = some offset' → offset + e.size ≤ offset'
  /-- Members do not leave the struct. -/
  inside : ∀ (i offset : Nat) (e : Span), offsets[i]? = some offset →
    members[i]? = some e → offset + e.size ≤ whole.size

theorem Arranged.offset_le {packed : Bool} {members : List Span} {offsets : List Nat}
    {whole : Span} (h : Arranged packed members offsets whole) {offset : Nat}
    (hoffset : offset ∈ offsets) : offset ≤ whole.size := by
  obtain ⟨i, hi⟩ := List.mem_iff_getElem?.mp hoffset
  have hlt : i < members.length := h.count ▸ (List.getElem?_eq_some_iff.mp hi).1
  exact Nat.le_trans (Nat.le_add_right ..)
    (h.inside i offset _ hi (List.getElem?_eq_getElem hlt))

namespace Span

variable {packed : Bool} {e : Span} {members : List Span} {b : Nat}

theorem length_starts (packed : Bool) (b : Nat) (members : List Span) :
    (starts packed b members).length = members.length := by
  induction members generalizing b with
  | nil => rfl
  | cons e rest ih => exact congrArg (· + 1) (ih _)

/-- What comes later ends later. -/
theorem le_stopOf (h : ∀ e ∈ members, IsAlignment e.align) (packed : Bool) (b : Nat) :
    b ≤ stopOf packed b members := by
  induction members generalizing b with
  | nil => exact Nat.le_refl b
  | cons e rest ih =>
    rw [List.forall_mem_cons] at h
    have hround := le_roundUp (isAlignment_alignIn h.1 packed).pos b
    have hrest := ih h.2 (roundUp b (e.alignIn packed) + e.size)
    rw [stopOf]
    omega

/-- A member stands behind what was there, and ends before the end of all. -/
theorem starts_between (h : ∀ e ∈ members, IsAlignment e.align) {i offset : Nat}
    (hoffset : (starts packed b members)[i]? = some offset) (he : members[i]? = some e) :
    b ≤ offset ∧ offset + e.size ≤ stopOf packed b members := by
  induction members generalizing b i with
  | nil => cases he
  | cons first rest ih =>
    rw [List.forall_mem_cons] at h
    have hround := le_roundUp (isAlignment_alignIn h.1 packed).pos b
    cases i with
    | zero =>
      cases hoffset
      cases he
      exact ⟨hround, le_stopOf h.2 packed _⟩
    | succ i =>
      obtain ⟨hlow, hhigh⟩ := ih h.2 hoffset he
      exact ⟨by omega, hhigh⟩

/-- Each member is put at the first place that is right for it. -/
theorem starts_next (h : ∀ e ∈ members, IsAlignment e.align) {i offset stop : Nat}
    (hoffset : (starts packed b members)[i]? = some offset) (he : members[i]? = some e)
    (hstop : (b ::
      List.zipWith (fun offset e => offset + e.size) (starts packed b members)
        members)[i]? = some stop) :
    IsLeast {k | e.alignIn packed ∣ k ∧ stop ≤ k} offset := by
  induction members generalizing b i with
  | nil => cases he
  | cons first rest ih =>
    rw [List.forall_mem_cons] at h
    cases i with
    | zero =>
      cases hoffset
      cases he
      cases hstop
      exact isLeast_roundUp (isAlignment_alignIn h.1 packed).pos _
    | succ i => exact ih h.2 hoffset he hstop

/-- The last end. -/
theorem stopOf_eq {stop : Nat}
    (hstop : (b ::
      List.zipWith (fun offset e => offset + e.size) (starts packed b members)
        members)[members.length]? =
      some stop) : stopOf packed b members = stop := by
  induction members generalizing b with
  | nil =>
    cases hstop
    rfl
  | cons first rest ih => exact ih hstop

theorem starts_disjoint (h : ∀ e ∈ members, IsAlignment e.align)
    {i j offset offset' : Nat} (hij : i < j)
    (hoffset : (starts packed b members)[i]? = some offset) (he : members[i]? = some e)
    (hoffset' : (starts packed b members)[j]? = some offset') :
    offset + e.size ≤ offset' := by
  induction members generalizing b i j with
  | nil => cases he
  | cons first rest ih =>
    rw [List.forall_mem_cons] at h
    obtain ⟨j, rfl⟩ :=
      Nat.exists_eq_add_one_of_ne_zero
        (Nat.ne_of_gt (Nat.lt_of_le_of_lt (Nat.zero_le i) hij))
    cases i with
    | zero =>
      cases hoffset
      cases he
      have hlt : j < rest.length := by
        have hlt := (List.getElem?_eq_some_iff.mp hoffset').1
        rw [starts, List.length_cons, length_starts] at hlt
        omega
      exact (starts_between h.2 hoffset' (List.getElem?_eq_getElem hlt)).1
    | succ i => exact ih h.2 (by omega) hoffset he hoffset'

/-- The largest alignment is one of the members', and bounds them all. -/
theorem foldl_max (members : List Span) (a : Nat) :
    (members.foldl (fun a e => max a e.align) a = a ∨
      ∃ e ∈ members, e.align = members.foldl (fun a e => max a e.align) a) ∧
    a ≤ members.foldl (fun a e => max a e.align) a ∧
    ∀ e ∈ members, e.align ≤ members.foldl (fun a e => max a e.align) a := by
  induction members generalizing a with
  | nil => exact ⟨.inl rfl, Nat.le_refl a, fun _ h => nomatch h⟩
  | cons first rest ih =>
    obtain ⟨hmem, hle, hbound⟩ := ih (max a first.align)
    rw [List.foldl_cons]
    refine ⟨?_, by omega, ?_⟩
    · rcases hmem with hmem | ⟨e, he, heq⟩
      · rcases Nat.le_total first.align a with hmax | hmax
        · exact .inl (hmem.trans (Nat.max_eq_left hmax))
        · exact .inr ⟨first, List.mem_cons_self,
            (hmem.trans (Nat.max_eq_right hmax)).symm⟩
      · exact .inr ⟨e, List.mem_cons_of_mem _ he, heq⟩
    · intro e he
      rcases List.mem_cons.mp he with rfl | he
      · omega
      · exact hbound e he

theorem alignOf_packed (members : List Span) : alignOf true members = 1 := by
  have hfold : ∀ (members : List Span),
      members.foldl (fun a e => max a (e.alignIn true)) 1 = 1 := by
    intro members
    induction members with
    | nil => rfl
    | cons e rest ih => exact ih
  exact hfold members

theorem alignOf_greatest (h : ∀ e ∈ members, IsAlignment e.align) (packed : Bool) :
    if packed || members.isEmpty then alignOf packed members = 1
    else IsGreatest {a | ∃ e ∈ members, e.align = a} (alignOf packed members) := by
  cases packed with
  | true => exact alignOf_packed members
  | false =>
    cases members with
    | nil => rfl
    | cons first rest =>
      obtain ⟨hmem, -, hbound⟩ := foldl_max (first :: rest) 1
      refine ⟨?_, ?_⟩
      · rcases hmem with hone | hmem
        · -- All alignments are 1 then, the first one too.
          have hfirst := hbound first List.mem_cons_self
          have hpos := (h first List.mem_cons_self).pos
          have hsame : first.align = 1 := by omega
          exact ⟨first, List.mem_cons_self, hsame.trans hone.symm⟩
        · exact hmem
      · rintro a ⟨e, he, rfl⟩
        exact hbound e he

/-- The field loop lays members out by the laws. -/
theorem arranged_starts (h : ∀ e ∈ members, IsAlignment e.align) (packed : Bool) :
    Arranged packed members (starts packed 0 members) (ofMembers packed members) where
  count := length_starts packed 0 members
  first offset hoffset := by
    cases members with
    | nil => cases hoffset
    | cons e rest =>
      cases hoffset
      have hpos := (isAlignment_alignIn (h e List.mem_cons_self) packed).pos
      exact Nat.le_zero.mp ((isLeast_roundUp hpos 0).2 ⟨Nat.dvd_zero _, Nat.le_refl 0⟩)
  next i offset e stop hoffset he hstop := starts_next h hoffset he hstop
  align := alignOf_greatest h packed
  size stop hstop := by
    rw [← stopOf_eq hstop]
    exact isLeast_roundUp (isAlignment_alignOf h packed).pos _
  disjoint i j offset offset' e hij hoffset he hoffset' :=
    starts_disjoint h hij hoffset he hoffset'
  inside i offset e hoffset he :=
    Nat.le_trans (starts_between h hoffset he).2
      (le_roundUp (isAlignment_alignOf h packed).pos _)

end Span

/-! ## Types that fit -/

namespace Ty

mutual

/-- No size in a type, and no end of a member rounded up to 8, reaches `2 ^ 64`. -/
def Fits : Ty → Prop
  | array element length => element.Fits ∧ element.span.size * length.toNat < UInt64.size
  | struct _ fields packed => AllFit fields ∧
      ∀ stop ∈ stops (Span.starts packed 0 (spans fields)) (spans fields),
      roundUp stop 8 < UInt64.size
  | _ => True

/-- Types that all fit. -/
def AllFit : List Ty → Prop
  | [] => True
  | ty :: rest => ty.Fits ∧ AllFit rest

end

end Ty

namespace Span

variable {packed : Bool} {members : List Span} {b : Nat}

theorem roundsTo_of_fits {n a : Nat} (ha : IsAlignment a)
    (h : roundUp n 8 < UInt64.size) : roundsTo n a = true :=
  decide_eq_true (.inr (Nat.lt_of_le_of_lt (ha.roundUp_le n) h))

/-- Where all ends fit, all members can be rounded up to. -/
theorem roundsFrom_of_fits (h : ∀ e ∈ members, IsAlignment e.align)
    (hstops : ∀ stop ∈
      b :: List.zipWith (fun offset e => offset + e.size)
      (starts packed b members) members, roundUp stop 8 < UInt64.size) :
    roundsFrom packed b members = true ∧
      roundUp (stopOf packed b members) 8 < UInt64.size := by
  induction members generalizing b with
  | nil => exact ⟨rfl, hstops b List.mem_cons_self⟩
  | cons e rest ih =>
    rw [List.forall_mem_cons] at h
    rw [List.forall_mem_cons] at hstops
    obtain ⟨hrest, hlast⟩ := ih h.2 hstops.2
    have hfirst := roundsTo_of_fits (isAlignment_alignIn h.1 packed) hstops.1
    refine ⟨?_, hlast⟩
    rw [roundsFrom, hfirst, hrest]
    rfl

theorem membersRound_of_fits (h : ∀ e ∈ members, IsAlignment e.align)
    (hstops : ∀ stop ∈ stops (starts packed 0 members) members,
      roundUp stop 8 < UInt64.size) :
    membersRound packed members = true ∧
      (ofMembers packed members).size < UInt64.size := by
  obtain ⟨hloop, hlast⟩ := roundsFrom_of_fits h hstops
  have halign := isAlignment_alignOf h packed
  refine ⟨?_, Nat.lt_of_le_of_lt (halign.roundUp_le _) hlast⟩
  rw [membersRound, hloop, roundsTo_of_fits halign hlast]
  rfl

end Span

namespace Ty

mutual

/-- A type that fits has a layout, in which nothing is cut off. -/
theorem Fits.rounds : ∀ {ty : Ty}, ty.Fits → ty.rounds = true ∧ ty.span.size < UInt64.size
  | void, _ | type, _ | bool, _ | f32, _ | f64, _ => ⟨rfl, by decide⟩
  | ptr _, _ | function _ _ _, _ => ⟨rfl, show 8 < UInt64.size by decide⟩
  | int width, _ | uint width, _ => ⟨rfl, by cases width <;> decide⟩
  | array _ _, h => ⟨h.1.rounds.1, h.2⟩
  | struct _ fields packed, h => by
      obtain ⟨hround, hsize⟩ := Span.membersRound_of_fits (isAlignment_spans fields) h.2
      refine ⟨?_, hsize⟩
      rw [Ty.rounds, (AllFit.rounds h.1).1, hround]
      rfl

theorem AllFit.rounds : ∀ {tys : List Ty}, AllFit tys →
    allRound tys = true ∧ ∀ e ∈ spans tys, e.size < UInt64.size
  | [], _ => ⟨rfl, fun _ h => nomatch h⟩
  | ty :: rest, h => by
      obtain ⟨hround, hsize⟩ := h.1.rounds
      obtain ⟨hrest, hsizes⟩ := AllFit.rounds h.2
      refine ⟨?_, List.forall_mem_cons.mpr ⟨hsize, hsizes⟩⟩
      rw [allRound, hround, hrest]
      rfl

end

end Ty

/-- The extent as numbers. -/
def Extent.span (e : Extent) : Span := ⟨e.size.toNat, e.align.toNat⟩

theorem toNat_ofNat_align {a : Nat} (ha : IsAlignment a) :
    (UInt32.ofNat a).toNat = a := by
  rcases ha with rfl | rfl | rfl | rfl <;> rfl

theorem span_clamped {e : Span} (ha : IsAlignment e.align)
    (hsize : e.size < UInt64.size) : e.clamped.span = e := by
  obtain ⟨size, align⟩ := e
  simp only [Extent.span, Span.clamped, Word.toNat_clamp_of_lt hsize,
    toNat_ofNat_align ha]

theorem size_of_rounds {ty : Ty} (h : ty.rounds = true) :
    ty.size = .ok (Word.clamp ty.span.size) ∧
      ty.align = .ok (UInt32.ofNat ty.span.align) := by
  rw [Ty.size_eq, Ty.align_eq, if_pos h, if_pos h]
  exact ⟨rfl, rfl⟩

/-- In the layout of a struct that fits no number is cut off. -/
theorem arranged_of_fits {name : Option String} {fields : List Ty} {packed : Bool}
    (h : (Ty.struct name fields packed).Fits) :
    ∃ members layout, Ty.extents fields = .ok members ∧
      Ty.structLayout packed fields = .ok layout ∧
      layout.size = Word.clamp (Ty.struct name fields packed).span.size ∧
      layout.align = UInt32.ofNat (Ty.struct name fields packed).span.align ∧
      Arranged packed (members.map Extent.span) (layout.offsets.map (·.toNat))
        (Ty.struct name fields packed).span.clamped.span := by
  have hspans := Ty.isAlignment_spans fields
  obtain ⟨hrounds, hsize⟩ := h.rounds
  obtain ⟨hall, hsizes⟩ := Ty.AllFit.rounds h.1
  have hlayout := Ty.structLayout_eq name fields packed
  have hextents := Ty.extents_eq fields
  have harranged := Span.arranged_starts hspans packed
  rw [if_pos hrounds] at hlayout
  rw [if_pos hall] at hextents
  refine ⟨_, _, hextents, hlayout, rfl, rfl, ?_⟩
  have hmembers : ((Ty.spans fields).map Span.clamped).map Extent.span =
      Ty.spans fields := by
    rw [List.map_map]
    exact (List.map_congr_left fun e he => span_clamped (hspans e he) (hsizes e he)).trans
      (List.map_id _)
  have hoffsets : ((Span.starts packed 0 (Ty.spans fields)).map Word.clamp).map
    (·.toNat) =
      Span.starts packed 0 (Ty.spans fields) := by
    rw [List.map_map]
    refine (List.map_congr_left fun offset hoffset => ?_).trans (List.map_id _)
    exact Word.toNat_clamp_of_lt (Nat.lt_of_le_of_lt (harranged.offset_le hoffset) hsize)
  rw [hmembers, hoffsets,
    span_clamped (Ty.isAlignment_span (.struct name fields packed)) hsize]
  exact harranged

/--
The laws of the layout of a type that fits. Sizes are exact and multiples of the
alignment, members stand in order and as close together as they may, and the elements of
an array are all aligned.
-/
theorem layout_lawful {ty : Ty} (h : ty.Fits) :
    ∃ size align, ty.size = .ok size ∧ ty.align = .ok align ∧ size.toNat = ty.span.size ∧
      (align = 1 ∨ align = 2 ∨ align = 4 ∨ align = 8) ∧ align.toNat ∣ size.toNat ∧
      (∀ name fields packed, ty = .struct name fields packed → ∃ members layout,
        Ty.extents fields = .ok members ∧ Ty.structLayout packed fields = .ok layout ∧
          layout.size = size ∧
        layout.align = align ∧
        Arranged packed (members.map Extent.span) (layout.offsets.map (·.toNat))
          ⟨size.toNat, align.toNat⟩) ∧
      ∀ element length, ty = .array element length → ∃ stride, element.size = .ok stride ∧
        element.align = .ok align ∧ size.toNat = stride.toNat * length.toNat ∧
        ∀ i < length.toNat, align.toNat ∣ stride.toNat * i ∧
          stride.toNat * i + stride.toNat ≤ size.toNat := by
  obtain ⟨hrounds, hsize⟩ := h.rounds
  obtain ⟨hsize_eq, halign_eq⟩ := size_of_rounds hrounds
  have halign := Ty.isAlignment_span ty
  have hexact := Word.toNat_clamp_of_lt hsize
  refine ⟨_, _, hsize_eq, halign_eq, hexact, ?_, ?_, ?_, ?_⟩
  · rcases halign with ha | ha | ha | ha <;> rw [ha] <;> decide
  · rw [hexact, toNat_ofNat_align halign]
    exact ty.align_dvd_size
  · rintro name fields packed rfl
    exact arranged_of_fits h
  · rintro element length rfl
    obtain ⟨hinner, hstride⟩ := h.1.rounds
    obtain ⟨hstride_eq, hinner_eq⟩ := size_of_rounds hinner
    refine ⟨_, hstride_eq, hinner_eq, ?_, ?_⟩
    · rw [hexact, Word.toNat_clamp_of_lt hstride]
      rfl
    · intro i hi
      rw [hexact, Word.toNat_clamp_of_lt hstride, toNat_ofNat_align halign]
      refine ⟨Nat.dvd_mul_right_of_dvd element.align_dvd_size i, ?_⟩
      rw [← Nat.mul_succ]
      exact Nat.mul_le_mul_left _ hi

/-! ## Packed and unpacked structs in each other -/

/-- Eleven bytes without a gap. -/
def stamp : Ty := .struct none [.int .w16, .ptr (.int .w8), .bool] true

/-- A stamp between a byte and a word that is aligned again. -/
def entry : Ty := .struct none [.bool, stamp, .int .w32] false

/-- Entries, right behind a byte. -/
def ledger : Ty := .struct none [.uint .w8, .array entry 3, .f64] true

/-- A ledger, entries that are aligned behind it, a short word, and nothing. -/
def pageFields : List Ty := [ledger, .array entry 2, .int .w16, .array .void 5]

/--
The layout of a page: gaps of three bytes before the entries, and of two at the end.
-/
theorem page_lawful : (Ty.struct none pageFields false).Fits ∧
    (Ty.struct none pageFields false).size = .ok 96 ∧
    (Ty.struct none pageFields false).align = .ok 4 ∧
      ∃ members layout, Ty.extents pageFields = .ok members ∧
      Ty.structLayout false pageFields = .ok layout ∧ layout.offsets = [0, 60, 92, 94] ∧
      Arranged false (members.map Extent.span)
      (layout.offsets.map (·.toNat)) ⟨96, 4⟩ := by
  have hfits : (Ty.struct none pageFields false).Fits := by
    simp only [pageFields, ledger, entry, stamp, Ty.Fits, Ty.AllFit, true_and, and_true]
    decide
  have hsize : (Ty.struct none pageFields false).size = .ok 96 := rfl
  have halign : (Ty.struct none pageFields false).align = .ok 4 := rfl
  have hlayout : Ty.structLayout false pageFields = .ok ⟨96, 4, [0, 60, 92, 94]⟩ := rfl
  obtain ⟨size, align, hsize', halign', -, -, -, hstruct, -⟩ := layout_lawful hfits
  cases hsize.symm.trans hsize'
  cases halign.symm.trans halign'
  obtain ⟨members, layout, hmembers, hlayout', -, -, harranged⟩ :=
    hstruct none pageFields false rfl
  cases hlayout.symm.trans hlayout'
  exact ⟨hfits, hsize, halign, members, _, hmembers, hlayout, rfl, harranged⟩

end InstSelect.IR
