import Mathlib.Data.List.Nodup
import InstSelect.Proofs.Fetching

/-!
# The numbers of virtual registers

Virtual registers are numbered in the order in which they enter the arena, without gaps,
and an address only uses registers that are there already. So the arena of a function
lists its virtual registers in order, and whatever an operand names, itself or in an
address, is numbered below the count.
-/

namespace InstSelect.Machine

variable {o : Operand} {r : VReg} {st : Storage} {form : Form}

/-- The virtual register of an operand that is one. -/
def Operand.virt? (o : Operand) : Option VReg :=
  match o.form with
  | .virt r => some r
  | _ => none

/-- The virtual register of a base or an index. -/
def Reg.virt? : Reg → Option VReg
  | .virt r => some r
  | .phys _ => none

/-- The virtual registers that an operand names, also as base or index of an address. -/
def Operand.vregs (o : Operand) : List VReg :=
  match o.form with
  | .virt r => [r]
  | .mem a => a.registers.filterMap Reg.virt?
  | _ => []

/-- All virtual registers that an operand names are numbered below `n`. -/
def Operand.Below (n : Nat) (o : Operand) : Prop := ∀ r ∈ o.vregs, r.index.toNat < n

theorem Operand.Below.mono {n m : Nat} (h : o.Below n) (hle : n ≤ m) : o.Below m :=
  fun r hr => Nat.lt_of_lt_of_le (h r hr) hle

theorem Reg.virt?_eq_some {q : Reg} : q.virt? = some r ↔ q = .virt r := by
  cases q <;> simp [virt?]

theorem Operand.mem_vregs_of_mem {a : Address} :
    r ∈ (⟨.mem a, st⟩ : Operand).vregs ↔ .virt r ∈ a.registers := by
  simp [vregs, List.mem_filterMap, Reg.virt?_eq_some]

theorem Operand.virt?_eq_some : o.virt? = some r ↔ o.form = .virt r := by
  obtain ⟨form, st⟩ := o
  cases form <;> simp [virt?]

/-- The virtual registers of a function are numbered in the order of its arena. -/
structure Function.Numbered (f : Function) : Prop where
  listed : f.operands.toList.filterMap Operand.virt? =
    (List.range f.nextVReg.toNat).map fun k => ⟨.ofNat k⟩
  below : ∀ o ∈ f.operands, o.Below f.nextVReg.toNat

namespace Function.Numbered

variable {f : Function}

theorem of_empty (hoperands : ∀ o ∈ f.operands, o.vregs = []) (hnext : f.nextVReg = 0) :
    f.Numbered := by
  refine ⟨?_, fun o ho r hr => ?_⟩
  · rw [hnext]
    refine List.filterMap_eq_nil_iff.mpr fun o ho => ?_
    have hnone := hoperands o (Array.mem_toList_iff.mp ho)
    obtain ⟨form, st⟩ := o
    cases form with
    | virt r => cases hnone
    | _ => rfl
  · rw [hoperands o ho] at hr
    cases hr

/-- An operand that is no virtual register names registers that are there. -/
theorem below_of_admits (h : f.Numbered) (hadm : f.Admits form)
    (hvirt : ∀ r, form ≠ .virt r) : (⟨form, st⟩ : Operand).Below f.nextVReg.toNat := by
  intro r hr
  cases form with
  | virt q => exact absurd rfl (hvirt q)
  | mem a =>
    obtain ⟨o, ho, hform⟩ := hadm r (Operand.mem_vregs_of_mem.mp hr)
    refine h.below o ho r ?_
    simp [Operand.vregs, hform]
  | _ => cases hr

theorem extend (h : f.Numbered) (hadm : f.Admits form) (st : Storage) :
    (f.extend form st).Numbered := by
  have hlist : (f.extend form st).operands.toList = f.operands.toList ++ [⟨form, st⟩] :=
    Array.toList_push
  by_cases hvirt : ∃ r, form = .virt r
  · obtain ⟨r, rfl⟩ := hvirt
    obtain ⟨hindex, hlt⟩ := hadm
    have hnext : (f.extend (.virt r) st).nextVReg.toNat = f.nextVReg.toNat + 1 := by
      show (f.nextVReg + 1).toNat = _
      rw [UInt32.toNat_add]
      exact Nat.mod_eq_of_lt hlt
    have hlast : r = ⟨.ofNat f.nextVReg.toNat⟩ := by rw [UInt32.ofNat_toNat, ← hindex]
    refine ⟨?_, fun o ho => ?_⟩
    · rw [hlist, hnext, List.filterMap_append, h.listed, List.range_succ, List.map_append]
      exact congrArg _ (congrArg (fun q => [q]) hlast)
    · rw [hnext]
      rcases Array.mem_push.mp ho with hold | rfl
      · exact (h.below o hold).mono (Nat.le_succ _)
      · intro q hq
        cases List.mem_singleton.mp hq
        rw [hindex]
        exact Nat.lt_succ_self _
  · have hother : ∀ r, form ≠ .virt r := fun r hr => hvirt ⟨r, hr⟩
    have hnext : (f.extend form st).nextVReg = f.nextVReg := by
      cases form with
      | virt r => exact absurd rfl (hother r)
      | _ => rfl
    have hnone : (⟨form, st⟩ : Operand).virt? = none := by
      cases form with
      | virt r => exact absurd rfl (hother r)
      | _ => rfl
    refine ⟨?_, fun o ho => ?_⟩
    · rw [hlist, hnext, List.filterMap_append, h.listed]
      simp [hnone]
    · rw [hnext]
      rcases Array.mem_push.mp ho with hold | rfl
      · exact h.below o hold
      · exact h.below_of_admits hadm hother

/-- Only operands and the count matter. -/
theorem congr {g : Function} (h : f.Numbered) (hoperands : g.operands = f.operands)
    (hnext : g.nextVReg = f.nextVReg) : g.Numbered := by
  obtain ⟨hlisted, hbelow⟩ := h
  constructor
  · rw [hoperands, hnext, hlisted]
  · rw [hoperands, hnext]
    exact hbelow

end Function.Numbered

/-- A value that a duplicate-free selection lists once is selected at one place. -/
theorem existsUnique_of_nodup_filterMap {α β : Type} {f : α → Option β} {xs : List α}
    {b : β} (hnodup : (xs.filterMap f).Nodup) (hmem : b ∈ xs.filterMap f) :
    ∃! j : Nat, ∃ a, xs[j]? = some a ∧ f a = some b := by
  induction xs with
  | nil => cases hmem
  | cons x xs ih =>
    have htail : ∀ (j : Nat) (a : α), xs[j]? = some a → f a = some b →
      b ∈ xs.filterMap f := fun j a ha hb =>
      List.mem_filterMap.mpr ⟨a, List.mem_of_getElem? ha, hb⟩
    cases hx : f x with
    | none =>
      rw [List.filterMap_cons_none hx] at hnodup hmem
      obtain ⟨j, hj, huniq⟩ := ih hnodup hmem
      refine ⟨j + 1, hj, fun k hk => ?_⟩
      cases k with
      | zero =>
        obtain ⟨a, ha, hb⟩ := hk
        cases ha
        rw [hx] at hb
        cases hb
      | succ k => rw [huniq k hk]
    | some c =>
      rw [List.filterMap_cons_some hx] at hnodup hmem
      obtain ⟨hnew, hnodup⟩ := List.nodup_cons.mp hnodup
      by_cases hc : b = c
      · subst hc
        refine ⟨0, ⟨x, rfl, hx⟩, fun k hk => ?_⟩
        cases k with
        | zero => rfl
        | succ k =>
          obtain ⟨a, ha, hb⟩ := hk
          exact absurd (htail k a ha hb) hnew
      · obtain ⟨j, hj, huniq⟩ := ih hnodup ((List.mem_cons.mp hmem).resolve_left hc)
        refine ⟨j + 1, hj, fun k hk => ?_⟩
        cases k with
        | zero =>
          obtain ⟨a, ha, hb⟩ := hk
          cases ha
          rw [hx] at hb
          exact absurd (Option.some.inj hb).symm hc
        | succ k => rw [huniq k hk]

/-- Each number below the count belongs to exactly one register operand. -/
theorem Function.Numbered.exists_unique {f : Function} (h : f.Numbered) {k : Nat}
    (hk : k < f.nextVReg.toNat) :
    ∃! j : Nat, ∃ o, f.operands[j]? = some o ∧ o.form = .virt ⟨.ofNat k⟩ := by
  have hsmall : f.nextVReg.toNat < UInt32.size := f.nextVReg.toNat_lt
  have hnodup : (f.operands.toList.filterMap Operand.virt?).Nodup := by
    rw [h.listed]
    refine (List.nodup_range).map_on fun a ha b hb hab => ?_
    rw [List.mem_range] at ha hb
    have hindex : UInt32.ofNat a = UInt32.ofNat b := congrArg VReg.index hab
    have hnat := congrArg UInt32.toNat hindex
    rwa [UInt32.toNat_ofNat_of_lt' (by omega),
      UInt32.toNat_ofNat_of_lt' (by omega)] at hnat
  have hmem : (⟨.ofNat k⟩ : VReg) ∈ f.operands.toList.filterMap Operand.virt? := by
    rw [h.listed]
    exact List.mem_map_of_mem (List.mem_range.mpr hk)
  have hunique := existsUnique_of_nodup_filterMap hnodup hmem
  simpa only [Array.getElem?_toList, Operand.virt?_eq_some] using hunique

end InstSelect.Machine

namespace InstSelect.Lowering

open Machine (Code)

variable {env : Env} {s s' : State} {c c' : Current} {code : List Code}

theorem Grow.numbered (h : Grow env s s' code) (hc : s.current = some c)
    (hc' : s'.current = some c') (hn : c.machine.Numbered) : c'.machine.Numbered := by
  cases h with
  | operand current _ admits =>
    cases hc.symm.trans current
    cases hc'
    exact hn.extend admits _
  | value current =>
    cases hc.symm.trans hc'
    exact hn
  | inst current | block current | reserve current =>
    cases hc.symm.trans current
    cases hc'
    exact hn.congr rfl rfl

end InstSelect.Lowering
