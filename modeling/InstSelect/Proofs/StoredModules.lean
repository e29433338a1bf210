import InstSelect.IR.Json
import InstSelect.Lowering.Module
import InstSelect.Proofs.StoredPrograms

/-!
# Stored modules read back

A type is read with a bound on its nesting. The depth of its stored form is always enough:
every level of a type adds at least one level to the form, and the bound shrinks by one
only where a type contains others. So types of any nesting read back, and with them
everything in a module but floating-point constants, whose decimal text is rounded.
-/

namespace InstSelect.IR

open Json

/-! ## Types -/

instance : LawfulNamed Predicate where
  find?_ident p := by cases p <;> rfl

theorem Width.ofTag?_signedTag (w : Width) :
    Width.ofTag? Width.signedTag (.str w.signedTag) = some w := by
  cases w <;> decide

theorem Width.ofTag?_unsignedTag (w : Width) :
    Width.ofTag? Width.unsignedTag (.str w.unsignedTag) = some w := by
  cases w <;> decide

namespace Ty

/-! One level of a type, with any stored form in place of the types it contains. -/

theorem read_int (bound : Nat) (j : Json) :
    read (bound + 1) (tagged "Int" j) = .int <$> Width.ofTag? Width.signedTag j :=
  rfl

theorem read_uint (bound : Nat) (j : Json) :
    read (bound + 1) (tagged "Uint" j) = .uint <$> Width.ofTag? Width.unsignedTag j :=
  rfl

theorem read_ptr (bound : Nat) (j : Json) :
    read (bound + 1) (tagged "Ptr" j) = .ptr <$> read bound j :=
  rfl

theorem read_array (bound : Nat) (element length : Json) :
    read (bound + 1) (tagged "Array" (.arr [element, length])) =
      (do pure (.array (← read bound element) (← decode? length))) :=
  rfl

theorem read_struct (bound : Nat) (j : Json) : read (bound + 1) (tagged "Struct" j) =
    j.fields? ["name", "fields", "packed"] >>= fun
      | [name, fields, packed] => do
        let name ← withDefault none name
        let fields ← (← (← fields).items?).mapM (read bound)
        let packed ← required packed
        pure (.struct name fields packed)
      | _ => none :=
  rfl

theorem read_function (bound : Nat) (j : Json) : read (bound + 1) (tagged "Function" j) =
    j.fields? ["params", "ret", "is_variadic"] >>= fun
      | [params, ret, variadic] => do
        let params ← (← (← params).items?).mapM (read bound)
        let ret ← read bound (← ret)
        let variadic ← required variadic
        pure (.function params ret variadic)
      | _ => none :=
  rfl

theorem exists_of_depth_tagged {tag : String} {j : Json} {bound : Nat}
    (h : (tagged tag j).depth ≤ bound) :
    ∃ b, bound = b + 1 ∧ j.depth ≤ b := by
  simp only [tagged, depth, memberDepths] at h
  exact ⟨bound - 1, by omega, by omega⟩

mutual

/-- A bound of at least the depth of the stored form is enough to read a type back. -/
theorem read_toJson : ∀ (ty : Ty) (bound : Nat), ty.toJson.depth ≤ bound →
    read bound ty.toJson = some ty
  | void, 0, _ | void, _ + 1, _ => rfl
  | bool, 0, _ | bool, _ + 1, _ => rfl
  | f32, 0, _ | f32, _ + 1, _ => rfl
  | f64, 0, _ | f64, _ + 1, _ => rfl
  | type, 0, _ | type, _ + 1, _ => rfl
  | int w, bound, h => by
      obtain ⟨b, rfl, -⟩ := exists_of_depth_tagged h
      rw [toJson, read_int, Width.ofTag?_signedTag]
      rfl
  | uint w, bound, h => by
      obtain ⟨b, rfl, -⟩ := exists_of_depth_tagged h
      rw [toJson, read_uint, Width.ofTag?_unsignedTag]
      rfl
  | ptr pointee, bound, h => by
      obtain ⟨b, rfl, hpointee⟩ := exists_of_depth_tagged h
      rw [toJson, read_ptr, read_toJson pointee b hpointee]
      rfl
  | array element length, bound, h => by
      obtain ⟨b, rfl, hparts⟩ := exists_of_depth_tagged h
      simp only [depth, depths] at hparts
      rw [toJson, read_array, read_toJson element b (by omega), decode_encode]
      rfl
  | struct name fields packed, bound, h => by
      obtain ⟨b, rfl, hparts⟩ := exists_of_depth_tagged h
      simp only [depth, memberDepths] at hparts
      have hfields := mapM_read_toJsons fields b (by omega)
      rw [toJson, read_struct]
      refine (fields?_bind (by rfl) (by simp)).trans ?_
      simp [items?, hfields]
  | function params ret variadic, bound, h => by
      obtain ⟨b, rfl, hparts⟩ := exists_of_depth_tagged h
      simp only [depth, memberDepths] at hparts
      have hparams := mapM_read_toJsons params b (by omega)
      have hret := read_toJson ret b (by omega)
      rw [toJson, read_function]
      refine (fields?_bind (by rfl) (by simp)).trans ?_
      simp [items?, hparams, hret]

theorem mapM_read_toJsons :
    ∀ (tys : List Ty) (bound : Nat), depths (toJsons tys) ≤ bound →
    (toJsons tys).mapM (read bound) = some tys
  | [], _, _ => rfl
  | ty :: rest, bound, h => by
      simp only [toJsons, depths] at h
      rw [toJsons, List.mapM_cons, read_toJson ty bound (by omega),
        mapM_read_toJsons rest bound (by omega)]
      rfl

end

end Ty

instance : LawfulStored Ty where
  decode_encode ty := Ty.read_toJson ty _ (Nat.le_refl _)

instance : LawfulStored FnSig where
  decode_encode sig := by
    refine (fields?_bind (by rfl) (by simp)).trans ?_
    simp

/-! ## Nodes -/

instance : LawfulStored ValueId where
  decode_encode id := map_decode_encode ValueId.mk id.index

instance : NeverNull ValueId where
  encode_ne_null _ := Json.noConfusion

instance : LawfulStored InstId where
  decode_encode id := map_decode_encode InstId.mk id.index

instance : LawfulStored BlockId where
  decode_encode id := map_decode_encode BlockId.mk id.index

instance : LawfulStored FuncId where
  decode_encode id := map_decode_encode FuncId.mk id.index

instance : LawfulStored GlobalId where
  decode_encode id := map_decode_encode GlobalId.mk id.index

/-- A value that is not a floating-point constant. -/
def Value.FloatFree (v : Value) : Prop :=
  ∀ x, v.kind ≠ .constant (.float x)

theorem Constant.decode?_encode {c : Constant} (h : ∀ x, c ≠ .float x) :
    decode? (encode c) = some c := by
  cases c with
  | int value => exact read_tagged Constant.int (fun _ => rfl) value
  | float x => exact absurd rfl (h x)
  | bytes data => exact read_tagged Constant.bytes (fun _ => rfl) data
  | aggregate elements => exact read_tagged Constant.aggregate (fun _ => rfl) elements
  | _ => rfl

theorem ValueKind.read_argument (positional : Bool) (j : Json) :
    ValueKind.read positional (tagged "Argument" j) =
      j.constructorFields? positional ["func", "index"] >>= fun
        | [func, index] => do pure (.argument (← required func) (← required index))
        | _ => none :=
  rfl

theorem ValueKind.read_constant (positional : Bool) (j : Json) :
    ValueKind.read positional (tagged "Constant" j) = .constant <$> decode? j :=
  rfl

theorem ValueKind.read_toJson (positional : Bool) {kind : ValueKind}
    (h : ∀ x, kind ≠ .constant (.float x)) :
    ValueKind.read positional kind.toJson = some kind := by
  cases kind with
  | instruction id => exact read_tagged ValueKind.instruction (fun _ => rfl) id
  | argument func index =>
    refine (ValueKind.read_argument positional _).trans ?_
    refine (bind_of_eq_some (constructorFields?_obj positional (by rfl) (by simp))).trans
      ?_
    simp
  | constant c =>
    have hc := Constant.decode?_encode (c := c) fun x hx => h x (congrArg _ hx)
    refine (ValueKind.read_constant positional _).trans ?_
    rw [hc]
    rfl
  | function id => exact read_tagged ValueKind.function (fun _ => rfl) id
  | global id => exact read_tagged ValueKind.global (fun _ => rfl) id
  | block id => exact read_tagged ValueKind.block (fun _ => rfl) id

theorem Value.read_encode (positional : Bool) {v : Value} (h : v.FloatFree) :
    Value.read positional (encode v) = some v := by
  refine (fields?_bind (by rfl) (by simp)).trans ?_
  have hkind : ValueKind.read positional (encode v.kind) = some v.kind :=
    ValueKind.read_toJson positional h
  simp [hkind]

instance : LawfulStored Opcode where
  decode_encode op := by
    cases op with
    | cmp predicate => exact read_tagged Opcode.cmp (fun _ => rfl) predicate
    | _ => rfl

instance : LawfulStored Inst where
  decode_encode i := by
    refine (fields?_bind (by rfl) (by simp)).trans ?_
    simp

instance : LawfulStored Block where
  decode_encode b := by
    refine (fields?_bind (by rfl) (by simp)).trans ?_
    simp

instance : LawfulStored Function where
  decode_encode f := by
    refine (fields?_bind (by rfl) (by simp)).trans ?_
    simp

instance : LawfulStored Global where
  decode_encode g := by
    refine (fields?_bind (by rfl) (by simp)).trans ?_
    simp

/-! ## Modules -/

/-- A module without floating-point constants. -/
def Module.FloatFree (m : Module) : Prop :=
  ∀ v ∈ m.values, v.FloatFree

theorem Module.read_toJson (positional : Bool) {m : Module} (h : m.FloatFree) :
    Module.read positional m.toJson = some m := by
  refine (fields?_bind (by rfl) (by simp)).trans ?_
  have hvalues : (m.values.toList.map encode).mapM (Value.read positional) =
      some m.values.toList :=
    mapM_map_encode fun v hv =>
      Value.read_encode positional (h v (Array.mem_toList_iff.mp hv))
  have hitems : (encode m.values).items? = some (m.values.toList.map encode) := rfl
  simp [hitems, hvalues]

/--
Modules without floating-point constants, programs and calling conventions read back from
their stored forms, whether or not the fields of constructors may be given by position; so
what was read lowers as before.
-/
theorem stored_forms_read_back [Machine.Allocator] :
    (∀ m : Module, m.FloatFree →
      (∀ positional, Module.read positional (encode m) = some m) ∧
      ∀ abi : Abi, (do
        let m' ← decode? (encode m)
        let abi' ← decode? (encode abi)
        pure (Lowering.lowerModule m' abi')) = some (Lowering.lowerModule m abi)) ∧
    (∀ p : Machine.Program, decode? (encode p) = some p) ∧
    ∀ abi : Abi, decode? (encode abi) = some abi := by
  refine ⟨fun m hm => ⟨fun positional => Module.read_toJson positional hm, fun abi => ?_⟩,
    decode_encode, decode_encode⟩
  have hread : decode? (encode m) = some m := Module.read_toJson false hm
  rw [hread, decode_encode]
  rfl

/--
Nested and packed types, numbers at the ends of their ranges, ids that name nothing,
options of both kinds.
-/
def nestedModule : Module where
  name := "m"
  values := #[⟨.ptr (.ptr (.struct none [.int .w8, .array .bool 3] true)),
    .constant (.int Int64.minValue)⟩,
    ⟨.function [.struct (some "s") [] false] (.ptr .type) true, .argument ⟨4294967295⟩ 7⟩,
    ⟨.array (.uint .w8) 18446744073709551615, .constant (.bytes [0, 255])⟩]
  insts := #[⟨.cmp .lt, [⟨0⟩, ⟨7⟩], .bool, ⟨0⟩, ⟨9⟩⟩]
  blocks := #[⟨⟨0⟩, none, [⟨0⟩, ⟨0⟩], ⟨1⟩⟩, ⟨⟨3⟩, some "", [], ⟨2⟩⟩]
  functions := #[⟨"", ⟨[.f32], .void, true⟩, [⟨5⟩], [], true, ⟨0⟩⟩]
  globals := #[⟨"g", .void, none, some 4294967295, ⟨3⟩⟩, ⟨"g", .f64, some ⟨2⟩, none, ⟨3⟩⟩]

theorem nestedModule_reads_back : nestedModule.FloatFree ∧
    ∀ positional, Module.read positional (encode nestedModule) = some nestedModule := by
  have hfree : nestedModule.FloatFree := by
    simp [Module.FloatFree, Value.FloatFree, nestedModule]
  exact ⟨hfree, (stored_forms_read_back.1 nestedModule hfree).1⟩

end InstSelect.IR
