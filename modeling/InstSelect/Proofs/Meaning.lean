import InstSelect.IR.Arena
import InstSelect.Lowering.Storage
import InstSelect.Proofs.Execution

/-!
# The meaning of integer instructions

Two's-complement semantics of the integer instructions of the source IR. A value is a word
of which the low bits of its type's width count. What an instruction stream leaves open,
the arguments and the addresses of functions, globals and frame objects, is collected in a
`World`.

The semantics is partial: an instruction has a meaning where its operands have one and are
of the right widths, where a shift count is smaller than the shifted width, a truncation
narrows and an extension widens.
-/

namespace InstSelect.IR

variable {i : Inst} {id : InstId} {ids : List InstId}

/-- Width of the values of a type: that of the integer class which holds them. -/
def Ty.width? (ty : Ty) : Option Nat :=
  match Lowering.storageOf ty with
  | .ok st => if st.isInteger then some st.width else none
  | .error _ => none

/-- Whether two words compare as the predicate says. -/
def Predicate.holds (p : Predicate) (signed : Bool) {w : Nat} (x y : BitVec w) : Bool :=
  match p with
  | .eq => x == y
  | .ne => x != y
  | .lt => if signed then x.slt y else x.ult y
  | .le => if signed then x.sle y else x.ule y
  | .gt => if signed then y.slt x else y.ult x
  | .ge => if signed then y.sle x else y.ule x

/-- What the operations on two words of one width compute. -/
def Opcode.arithmetic? : Opcode → Option (∀ w, BitVec w → BitVec w → BitVec w)
  | .add => some fun _ x y => x + y
  | .sub => some fun _ x y => x - y
  | .mul => some fun _ x y => x * y
  | .and => some fun _ x y => x &&& y
  | .or => some fun _ x y => x ||| y
  | .xor => some fun _ x y => x ^^^ y
  | _ => none

/-- What shifts compute; a right shift of a signed value keeps the sign. -/
def Opcode.shift? (signed : Bool) : Opcode → Option (∀ w, BitVec w → Nat → BitVec w)
  | .shl => some fun _ x n => x <<< n
  | .shr =>
    if signed then some fun _ x n => x.sshiftRight n else some fun _ x n => x >>> n
  | _ => none

/-- What the instructions of a function leave open. -/
structure World where
  argument : Nat → BitVec 64
  function : FuncId → BitVec 64
  global : GlobalId → BitVec 64
  /-- Address of the frame object of an `alloca`. -/
  object : ValueId → BitVec 64

/-- The results of the instructions that were run. -/
abbrev Results := ValueId → Option (BitVec 64)

/-- The results after one more instruction. -/
def Results.set (ρ : Results) (v : ValueId) (x : BitVec 64) : Results :=
  fun u => if u = v then some x else ρ u

namespace Module

variable (m : Module) (W : World)

/-- The word of a value that no instruction of the stream computes. -/
def leaf? (v : ValueId) : Option (BitVec 64) :=
  match m.value v with
  | .ok ⟨_, .argument _ k⟩ => some (W.argument k.toNat)
  | .ok ⟨_, .constant (.int n)⟩ => some n.toBitVec
  | .ok ⟨_, .function g⟩ => some (W.function g)
  | .ok ⟨_, .global g⟩ => some (W.global g)
  | .ok ⟨_, .instruction id⟩ =>
    match m.inst id with
    | .ok i => if i.opcode = .alloca then some (W.object v) else none
    | .error _ => none
  | _ => none

def width? (v : ValueId) : Option Nat :=
  match m.value v with
  | .ok data => data.ty.width?
  | .error _ => none

/-- Whether a value is of a signed type. -/
def signed (v : ValueId) : Bool :=
  match m.value v with
  | .ok data => data.ty.isSigned
  | .error _ => false

variable (ρ : Results)

/-- The word of a value of width `w`. -/
def read? (w : Nat) (v : ValueId) : Option (BitVec w) :=
  if m.width? v = some w then ((m.leaf? W v).or (ρ v)).map (·.setWidth w) else none

/-- The result of an instruction of width `w`, by its operation and operands. -/
def eval? (i : Inst) (w : Nat) : Option (BitVec w) :=
  match i.opcode, i.operands with
  | .cmp p, [l, r] => do
    let v ← m.width? l
    let x ← m.read? W ρ v l
    let y ← m.read? W ρ v r
    match i.ty with
    | .bool => some (if p.holds (m.signed l) x y then 1 else 0)
    | _ => none
  | .trunc, [x] => do
    let v ← m.width? x
    let x ← m.read? W ρ v x
    if w < v then some (x.setWidth w) else none
  | .zext, [x] => do
    let v ← m.width? x
    let x ← m.read? W ρ v x
    if v < w then some (x.setWidth w) else none
  | .sext, [x] => do
    let v ← m.width? x
    let x ← m.read? W ρ v x
    if v < w then some (x.signExtend w) else none
  | .ptrToInt, [x] | .intToPtr, [x] | .bitcast, [x] => m.read? W ρ w x
  | .alloca, _ => some ((W.object i.value).setWidth w)
  | op, [l, r] =>
    match op.arithmetic?, op.shift? (m.signed l) with
    | some f, _ => do
      some (f w (← m.read? W ρ w l) (← m.read? W ρ w r))
    | none, some f => do
      let v ← m.width? r
      let n ← m.read? W ρ v r
      if n.toNat < w then some (f w (← m.read? W ρ w l) n.toNat) else none
    | none, none => none
  | _, _ => none

/-- The ways in which an instruction has a result. -/
inductive Evaluated (i : Inst) (w : Nat) : BitVec w → Prop
  | arithmetic {f : ∀ w, BitVec w → BitVec w → BitVec w} {l r : ValueId} {x y : BitVec w}
      (op : i.opcode.arithmetic? = some f) (operands : i.operands = [l, r])
      (left : m.read? W ρ w l = some x) (right : m.read? W ρ w r = some y) :
      Evaluated i w (f w x y)
  | shift {f : ∀ w, BitVec w → Nat → BitVec w} {l r : ValueId} {v : Nat} {x : BitVec w}
      {n : BitVec v} (op : i.opcode.shift? (m.signed l) = some f)
      (operands : i.operands = [l, r]) (left : m.read? W ρ w l = some x)
      (right : m.read? W ρ v r = some n) (small : n.toNat < w) :
      Evaluated i w (f w x n.toNat)
  | compare {p : Predicate} {l r : ValueId} {v : Nat} {x y : BitVec v}
      (op : i.opcode = .cmp p) (ty : i.ty = .bool) (operands : i.operands = [l, r])
      (left : m.read? W ρ v l = some x) (right : m.read? W ρ v r = some y) :
      Evaluated i w (if p.holds (m.signed l) x y then 1 else 0)
  | trunc {u : ValueId} {v : Nat} {x : BitVec v} (op : i.opcode = .trunc)
      (operands : i.operands = [u]) (source : m.read? W ρ v u = some x)
      (narrows : w < v) : Evaluated i w (x.setWidth w)
  | zext {u : ValueId} {v : Nat} {x : BitVec v} (op : i.opcode = .zext)
      (operands : i.operands = [u]) (source : m.read? W ρ v u = some x)
      (widens : v < w) : Evaluated i w (x.setWidth w)
  | sext {u : ValueId} {v : Nat} {x : BitVec v} (op : i.opcode = .sext)
      (operands : i.operands = [u]) (source : m.read? W ρ v u = some x) (widens : v < w) :
      Evaluated i w (x.signExtend w)
  | cast {u : ValueId} {x : BitVec w}
      (op : i.opcode = .ptrToInt ∨ i.opcode = .intToPtr ∨ i.opcode = .bitcast)
      (operands : i.operands = [u]) (source : m.read? W ρ w u = some x) : Evaluated i w x
  | alloca (op : i.opcode = .alloca) : Evaluated i w ((W.object i.value).setWidth w)

variable {m W ρ}

theorem Evaluated.of_eval? {w : Nat} {x : BitVec w} (h : m.eval? W ρ i w = some x) :
    m.Evaluated W ρ i w x := by
  unfold eval? at h
  split at h
  · next p l r hop hops =>
    simp only [Option.bind_eq_bind, Option.bind_eq_some_iff] at h
    obtain ⟨v, -, a, ha, b, hb, h⟩ := h
    split at h
    · next hty =>
      cases h
      exact .compare hop hty hops ha hb
    · cases h
  · next u hop hops =>
    simp only [Option.bind_eq_bind, Option.bind_eq_some_iff,
      Option.ite_none_right_eq_some] at h
    obtain ⟨v, -, a, ha, hlt, h⟩ := h
    cases h
    exact .trunc hop hops ha hlt
  · next u hop hops =>
    simp only [Option.bind_eq_bind, Option.bind_eq_some_iff,
      Option.ite_none_right_eq_some] at h
    obtain ⟨v, -, a, ha, hlt, h⟩ := h
    cases h
    exact .zext hop hops ha hlt
  · next u hop hops =>
    simp only [Option.bind_eq_bind, Option.bind_eq_some_iff,
      Option.ite_none_right_eq_some] at h
    obtain ⟨v, -, a, ha, hlt, h⟩ := h
    cases h
    exact .sext hop hops ha hlt
  · next u hop hops => exact .cast (.inl hop) hops h
  · next u hop hops => exact .cast (.inr (.inl hop)) hops h
  · next u hop hops => exact .cast (.inr (.inr hop)) hops h
  · next hop =>
    cases h
    exact .alloca hop
  · next l r hops _ _ =>
    split at h
    · next f hf =>
      simp only [Option.bind_eq_bind, Option.bind_eq_some_iff] at h
      obtain ⟨a, ha, b, hb, h⟩ := h
      cases h
      exact .arithmetic hf hops ha hb
    · next f _ hf =>
      simp only [Option.bind_eq_bind, Option.bind_eq_some_iff,
        Option.ite_none_right_eq_some] at h
      obtain ⟨v, -, n, hn, hlt, a, ha, h⟩ := h
      cases h
      exact .shift hf hops ha hn hlt
    · cases h
  · cases h

variable (m W)

/-- Runs a sequence of instructions. -/
def run? : List InstId → Results → Option Results
  | [], ρ => some ρ
  | id :: ids, ρ => do
    let i ← (m.inst id).toOption
    let w ← i.ty.width?
    let x ← m.eval? W ρ i w
    run? ids (ρ.set i.value (x.setWidth 64))

variable {m W} {ρ' : Results}

/-- A run of a sequence evaluates its first instruction and goes on from there. -/
theorem of_run?_cons {ρ : Results} (h : m.run? W (id :: ids) ρ = some ρ') :
    ∃ i w x, m.inst id = .ok i ∧ i.ty.width? = some w ∧ m.eval? W ρ i w = some x ∧
      m.run? W ids (ρ.set i.value (x.setWidth 64)) = some ρ' := by
  simp only [run?, Option.bind_eq_bind, Option.bind_eq_some_iff] at h
  obtain ⟨i, hi, w, hw, x, hx, h⟩ := h
  refine ⟨i, w, x, ?_, hw, hx, h⟩
  cases hinst : m.inst id with
  | ok i' =>
    rw [hinst] at hi
    exact congrArg _ (Option.some.inj hi)
  | error e =>
    rw [hinst] at hi
    cases hi

/-- A run forgets no result. -/
theorem run?_keeps {ρ : Results} {v : ValueId} (h : m.run? W ids ρ = some ρ')
    (hv : (ρ v).isSome) : (ρ' v).isSome := by
  induction ids generalizing ρ with
  | nil =>
    cases h
    exact hv
  | cons id ids ih =>
    obtain ⟨i, w, x, -, -, -, h⟩ := of_run?_cons h
    refine ih h ?_
    unfold Results.set
    split
    · rfl
    · exact hv

/-- A run gives each of its instructions a result. -/
theorem run?_defines {ρ : Results} (h : m.run? W ids ρ = some ρ') (hid : id ∈ ids)
    (hi : m.inst id = .ok i) : (ρ' i.value).isSome := by
  induction ids generalizing ρ with
  | nil => cases hid
  | cons id' ids ih =>
    obtain ⟨i', w, x, hi', -, -, h⟩ := of_run?_cons h
    rcases List.mem_cons.mp hid with rfl | hid
    · cases hi.symm.trans hi'
      exact run?_keeps h (by simp [Results.set])
    · exact ih h hid

end Module

end InstSelect.IR
