import InstSelect.Abi
import InstSelect.Json.Codec
import InstSelect.Json.Reader

/-!
# Stored calling conventions

The JSON form of a calling convention. What is not given keeps its Windows x64 value.
-/

namespace InstSelect

open Json

instance : Stored Abi where
  encode abi := .obj
    [("arg_registers", encode abi.argRegisters),
      ("return_register", encode abi.returnRegister),
      ("frame_base", encode abi.frameBase),
      ("shadow_space_offset", encode abi.shadowOffset),
      ("shadow_slot_size", encode abi.shadowSlotSize),
      ("min_call_stack", encode abi.minCallStack),
      ("intrinsic_prefix", encode abi.intrinsicMarker)]
  decode? j := do
    match ← j.leadingFields? ["arg_registers", "return_register", "frame_base",
      "shadow_space_offset", "shadow_slot_size", "min_call_stack",
      "intrinsic_prefix"] with
    | [argRegisters, returnRegister, frameBase, shadowOffset, shadowSlotSize,
        minCallStack, intrinsicMarker] =>
      let standard := Abi.win64
      pure ⟨← withDefault standard.argRegisters argRegisters,
        ← withDefault standard.returnRegister returnRegister,
        ← withDefault standard.frameBase frameBase,
        ← withDefault standard.shadowOffset shadowOffset,
        ← withDefault standard.shadowSlotSize shadowSlotSize,
        ← withDefault standard.minCallStack minCallStack,
        ← withDefault standard.intrinsicMarker intrinsicMarker⟩
    | _ => none

/-- The calling convention stored in a text. -/
def Abi.ofText? (text : String) : Option Abi := do
  decode? (← Json.parse text)

end InstSelect
