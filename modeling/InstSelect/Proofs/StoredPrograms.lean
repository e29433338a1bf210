import InstSelect.Abi.Json
import InstSelect.Machine.Json
import InstSelect.Proofs.StoredForms

/-!
# Stored programs and calling conventions read back

Every part of a machine program has a lawful stored form, and so has a calling convention:
what it gives is read in place of every default.
-/

namespace InstSelect

open Json

namespace Machine

/-! ## Operands -/

instance : LawfulNamed Storage where
  find?_ident s := by cases s <;> rfl

instance : LawfulNamed PhysReg where
  find?_ident r := by cases r <;> rfl

instance : LawfulNamed Cond where
  find?_ident c := by cases c <;> rfl

instance : LawfulStored OperandId where
  decode_encode id := map_decode_encode OperandId.mk id.index

instance : LawfulStored VReg where
  decode_encode id := map_decode_encode VReg.mk id.index

instance : LawfulStored SlotId where
  decode_encode id := map_decode_encode SlotId.mk id.index

instance : LawfulStored BlockId where
  decode_encode id := map_decode_encode BlockId.mk id.index

instance : LawfulStored Reg where
  decode_encode
    | .phys r => read_tagged Reg.phys (fun _ => rfl) r
    | .virt r => read_tagged Reg.virt (fun _ => rfl) r

instance : NeverNull Reg where
  encode_ne_null
    | .phys _ => Json.noConfusion
    | .virt _ => Json.noConfusion

instance : LawfulStored Address where
  decode_encode a := by
    refine (fields?_bind (by rfl) (by simp)).trans ?_
    simp

theorem Form.decode?_slot (j : Json) : (decode? (tagged "StackObject" j) : Option Form) =
    j.constructorFields? false ["id", "size", "align"] >>= fun
      | [id, size, align] =>
        do pure (.slot (← required id) (← required size) (← required align))
      | _ => none :=
  rfl

instance : LawfulStored Form where
  decode_encode
    | .phys r => read_tagged Form.phys (fun _ => rfl) r
    | .virt r => read_tagged Form.virt (fun _ => rfl) r
    | .slot id size align => by
        refine (Form.decode?_slot _).trans ?_
        refine (bind_of_eq_some (constructorFields?_obj false (by rfl) (by simp))).trans
          ?_
        simp
    | .symbol name => read_tagged Form.symbol (fun _ => rfl) name
    | .imm value => read_tagged Form.imm (fun _ => rfl) value
    | .mem address => read_tagged Form.mem (fun _ => rfl) address
    | .label block => read_tagged Form.label (fun _ => rfl) block

instance : LawfulStored Operand where
  decode_encode o := by
    refine (fields?_bind (by rfl) (by simp)).trans ?_
    simp

/-! ## Functions -/

instance : LawfulStored Op where
  decode_encode op := by
    cases op with
    | setcc cond => exact read_tagged Op.setcc (fun _ => rfl) cond
    | jcc cond => exact read_tagged Op.jcc (fun _ => rfl) cond
    | _ => rfl

instance : LawfulStored Inst where
  decode_encode i := by
    refine (fields?_bind (by rfl) (by simp)).trans ?_
    simp

instance : LawfulStored Block where
  decode_encode b := by
    refine (fields?_bind (by rfl) (by simp)).trans ?_
    simp

instance : LawfulStored Flags where
  decode_encode f := by
    refine (fields?_bind (by rfl) (by simp)).trans ?_
    simp

instance : LawfulStored Function where
  decode_encode f := by
    refine (fields?_bind (by rfl) (by simp)).trans ?_
    simp

/-! ## Programs -/

instance : LawfulStored Relocation where
  decode_encode r := by
    refine (fields?_bind (by rfl) (by simp)).trans ?_
    simp

/-- Bytes are written as numbers, never as a text. -/
theorem imageData?_encode (data : Array UInt8) : imageData? (encode data) = some data :=
  decode_encode data

instance : LawfulStored Image where
  decode_encode i := by
    refine (fields?_bind (by rfl) (by simp)).trans ?_
    simp [imageData?_encode]

instance : LawfulStored Program where
  decode_encode p := by
    refine (fields?_bind (by rfl) (by simp)).trans ?_
    simp

end Machine

/-! ## Calling conventions -/

instance : LawfulStored Abi where
  decode_encode abi := by
    refine (bind_of_eq_some (leadingFields?_obj (by rfl) (by simp))).trans ?_
    simp

end InstSelect
