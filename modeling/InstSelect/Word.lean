/-!
# Words with explicit overflow

Sizes, offsets and displacements are fixed-width words. Three kinds of arithmetic occur on
them: saturating (`satAdd`, `satMul`), which stops at the largest word; checked (`add`,
`mul`), which reports that the exact result has left the word; and the wrapping operators
of the word types themselves. Every checked operation computes over `Nat` or `Int` first,
so its success condition is the plain inequality on the exact result.
-/

namespace InstSelect

/-- The arithmetic operation whose exact result did not fit its word. -/
inductive Overflow
  | add
  | mul
deriving DecidableEq, Repr

namespace Word

/-- Sum that stops at `2^64 - 1`. -/
def satAdd (a b : UInt64) : UInt64 :=
  UInt64.ofNat (min (a.toNat + b.toNat) (UInt64.size - 1))

/-- Product that stops at `2^64 - 1`. -/
def satMul (a b : UInt64) : UInt64 :=
  UInt64.ofNat (min (a.toNat * b.toNat) (UInt64.size - 1))

@[simp]
theorem toNat_satAdd (a b : UInt64) :
    (satAdd a b).toNat = min (a.toNat + b.toNat) (UInt64.size - 1) := by
  have h : min (a.toNat + b.toNat) (UInt64.size - 1) < UInt64.size := by
    simp only [UInt64.size]
    omega
  exact UInt64.toNat_ofNat_of_lt h

@[simp]
theorem toNat_satMul (a b : UInt64) :
    (satMul a b).toNat = min (a.toNat * b.toNat) (UInt64.size - 1) := by
  have h : min (a.toNat * b.toNat) (UInt64.size - 1) < UInt64.size := by
    simp only [UInt64.size]
    omega
  exact UInt64.toNat_ofNat_of_lt h

/-- Sum of 64-bit unsigned words, if it fits. -/
def addU64 (a b : UInt64) : Except Overflow UInt64 :=
  if a.toNat + b.toNat < UInt64.size then .ok (a + b) else .error .add

/-- Product of 64-bit unsigned words, if it fits. -/
def mulU64 (a b : UInt64) : Except Overflow UInt64 :=
  if a.toNat * b.toNat < UInt64.size then .ok (a * b) else .error .mul

/-- Sum of 32-bit unsigned words, if it fits. -/
def addU32 (a b : UInt32) : Except Overflow UInt32 :=
  if a.toNat + b.toNat < UInt32.size then .ok (a + b) else .error .add

/-- Product of 32-bit unsigned words, if it fits. -/
def mulU32 (a b : UInt32) : Except Overflow UInt32 :=
  if a.toNat * b.toNat < UInt32.size then .ok (a * b) else .error .mul

/-- `n` is the value of a signed 32-bit word. -/
def FitsI32 (n : Int) : Prop := -(1 <<< 31) ≤ n ∧ n < 1 <<< 31

/-- `n` is the value of a signed 64-bit word. -/
def FitsI64 (n : Int) : Prop := -(1 <<< 63) ≤ n ∧ n < 1 <<< 63

instance (n : Int) : Decidable (FitsI32 n) := inferInstanceAs (Decidable (_ ∧ _))

instance (n : Int) : Decidable (FitsI64 n) := inferInstanceAs (Decidable (_ ∧ _))

/-- The signed 32-bit word of value `n`, if there is one. -/
def toI32? (n : Int) : Option Int32 :=
  if FitsI32 n then some (Int32.ofInt n) else none

/-- The signed 64-bit word of value `n`, if there is one. -/
def toI64? (n : Int) : Option Int64 :=
  if FitsI64 n then some (Int64.ofInt n) else none

/-- Sum of signed 32-bit words, if it fits. -/
def addI32 (a b : Int32) : Except Overflow Int32 :=
  match toI32? (a.toInt + b.toInt) with
  | some c => .ok c
  | none => .error .add

/-- Product of signed 32-bit words, if it fits. -/
def mulI32 (a b : Int32) : Except Overflow Int32 :=
  match toI32? (a.toInt * b.toInt) with
  | some c => .ok c
  | none => .error .mul

/-- Sum of signed 64-bit words, if it fits. -/
def addI64 (a b : Int64) : Except Overflow Int64 :=
  match toI64? (a.toInt + b.toInt) with
  | some c => .ok c
  | none => .error .add

/-- The bytes of a 64-bit word, least significant first. -/
def bytesLE (w : UInt64) (count : Nat) : List UInt8 :=
  (List.range count).map fun i => UInt8.ofNat (w.toNat >>> (8 * i))

@[simp]
theorem length_bytesLE (w : UInt64) (count : Nat) : (bytesLE w count).length = count := by
  simp [bytesLE]

end Word

end InstSelect
