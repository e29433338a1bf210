import Mathlib.Data.List.Nodup
import InstSelect.Json.Codec

/-!
# Stored forms that read back

A stored form is lawful if reading what was written gives the value again. The law is put
together the way values are: numbers lie in the range that their reader checks, a list is
read item by item, an option is told apart from its content because no content is written
as `null`, a constructor is found by its name, and the members of a record by their keys,
which differ.
-/

namespace InstSelect

open Json

variable {members : List (String × Json)} {names : List String}

/-- Stored forms that read back as the value that was written. -/
class LawfulStored (α : Type) [Stored α] : Prop where
  decode_encode (a : α) : decode? (encode a) = some a

export LawfulStored (decode_encode)

attribute [simp] LawfulStored.decode_encode

/-- Stored forms that are never `null`, so that an option can be told from its content. -/
class NeverNull (α : Type) [Stored α] : Prop where
  encode_ne_null (a : α) : encode a ≠ .null

/-- Enumerations whose identifiers tell the members apart. -/
class LawfulNamed (α : Type) [Named α] : Prop where
  find?_ident (a : α) : Named.find? (Named.ident a) = some a

/-! ## Records -/

theorem lookup_of_mem (hnodup : (members.map Prod.fst).Nodup) {name : String}
    {value : Json} (h : (name, value) ∈ members) : members.lookup name = some value := by
  induction members with
  | nil => cases h
  | cons m rest ih =>
    obtain ⟨hnew, hrest⟩ := List.nodup_cons.mp hnodup
    rcases List.mem_cons.mp h with rfl | h
    · exact List.lookup_cons_self
    · have hne : name ≠ m.1 := by
        rintro rfl
        exact hnew (List.mem_map.mpr ⟨_, h, rfl⟩)
      rw [List.lookup_cons, beq_false_of_ne hne]
      exact ih hrest h

theorem keysUnique_of_nodup (hnodup : (members.map Prod.fst).Nodup)
    (names : List String) :
    keysUnique names members = true := by
  refine List.all_eq_true.mpr fun name _ => decide_eq_true ?_
  have hcount := List.nodup_iff_count_le_one.mp hnodup name
  rwa [List.count_eq_countP, List.countP_map, List.countP_eq_length_filter] at hcount

/-- Members with the keys of a record, in order, are what is given for its fields. -/
theorem fields?_obj (hnames : members.map Prod.fst = names) (hnodup : names.Nodup) :
    fields? names (.obj members) = some (members.map fun m => some m.2) := by
  subst hnames
  rw [fields?, if_pos (keysUnique_of_nodup hnodup _), List.map_map]
  refine congrArg some (List.map_congr_left fun m hm => ?_)
  exact lookup_of_mem hnodup hm

theorem leadingFields?_obj (hnames : members.map Prod.fst = names)
    (hnodup : names.Nodup) :
    leadingFields? names (.obj members) = some (members.map fun m => some m.2) :=
  fields?_obj hnames hnodup

theorem constructorFields?_obj (positional : Bool) (hnames : members.map Prod.fst = names)
    (hnodup : names.Nodup) :
    constructorFields? positional names (.obj members) =
      some (members.map fun m => some m.2) := by
  cases positional <;> exact fields?_obj hnames hnodup

/-- What is read once the fields are there. -/
theorem bind_of_eq_some {α β : Type} {x : Option α} {a : α} {f : α → Option β}
    (h : x = some a) :
    (x >>= f) = f a := by
  rw [h]
  rfl

/-- What is read from the members of a record. -/
theorem fields?_bind {α : Type} {f : List (Option Json) → Option α}
    (hnames : members.map Prod.fst = names) (hnodup : names.Nodup) :
    (fields? names (.obj members) >>= f) = f (members.map fun m => some m.2) :=
  bind_of_eq_some (fields?_obj hnames hnodup)

/-! ## Fields and parameters -/

section

variable {α β : Type} [Stored α] [LawfulStored α]

@[simp]
theorem required_encode (a : α) : required (some (encode a)) = some a :=
  decode_encode a

@[simp]
theorem withDefault_encode (default a : α) :
    withDefault default (some (encode a)) = some a :=
  decode_encode a

theorem map_decode_encode (f : α → β) (a : α) :
    f <$> decode? (encode a) = some (f a) := by
  rw [decode_encode]
  rfl

/-- A constructor whose reader hands its parameter on. -/
theorem read_tagged {read : Json → Option β} {tag : String} (f : α → β)
    (h : ∀ j, read (tagged tag j) = f <$> decode? j) (a : α) :
    read (tagged tag (encode a)) = some (f a) := by
  rw [h, map_decode_encode]

end

/-! ## Basic types -/

instance : LawfulStored Bool where
  decode_encode _ := rfl

instance : LawfulStored String where
  decode_encode _ := rfl

instance : NeverNull String where
  encode_ne_null _ := Json.noConfusion

theorem intBetween?_int {low high n : Int} (hlow : low ≤ n) (hhigh : n < high) :
    (Json.int n).intBetween? low high = some n :=
  if_pos ⟨hlow, hhigh⟩

theorem intBetween?_nat {n size : Nat} (h : n < size) :
    (Json.int n).intBetween? 0 size = some (n : Int) :=
  intBetween?_int (Int.natCast_nonneg n) (Int.ofNat_lt.mpr h)

instance : LawfulStored UInt8 where
  decode_encode n := by
    show ((Json.int n.toNat).intBetween? 0 UInt8.size).map _ = some n
    rw [intBetween?_nat n.toNat_lt_size, Option.map_some, Int.toNat_natCast,
      UInt8.ofNat_toNat]

instance : LawfulStored UInt32 where
  decode_encode n := by
    show ((Json.int n.toNat).intBetween? 0 UInt32.size).map _ = some n
    rw [intBetween?_nat n.toNat_lt_size, Option.map_some, Int.toNat_natCast,
      UInt32.ofNat_toNat]

instance : NeverNull UInt32 where
  encode_ne_null _ := Json.noConfusion

instance : LawfulStored UInt64 where
  decode_encode n := by
    show ((Json.int n.toNat).intBetween? 0 UInt64.size).map _ = some n
    rw [intBetween?_nat n.toNat_lt_size, Option.map_some, Int.toNat_natCast,
      UInt64.ofNat_toNat]

instance : LawfulStored Int32 where
  decode_encode n := by
    have h := congrArg (Option.map Int32.ofInt) (intBetween?_int n.le_toInt n.toInt_lt)
    rwa [Option.map_some, Int32.ofInt_toInt] at h

instance : LawfulStored Int64 where
  decode_encode n := by
    have h := congrArg (Option.map Int64.ofInt) (intBetween?_int n.le_toInt n.toInt_lt)
    rwa [Option.map_some, Int64.ofInt_toInt] at h

section

variable {α : Type} [Stored α]

theorem mapM_map_encode {read : Json → Option α} {items : List α}
    (h : ∀ a ∈ items, read (encode a) = some a) :
    (items.map encode).mapM read = some items := by
  induction items with
  | nil => rfl
  | cons a rest ih =>
    rw [List.map_cons, List.mapM_cons, h a List.mem_cons_self,
      ih fun b hb => h b (List.mem_cons_of_mem a hb)]
    rfl

theorem decode?_of_ne_null {j : Json} (h : j ≠ .null) :
    (decode? j : Option (Option α)) = (decode? j).map some := by
  cases j with
  | null => exact absurd rfl h
  | _ => rfl

variable [LawfulStored α]

instance : LawfulStored (List α) where
  decode_encode _ := mapM_map_encode fun a _ => decode_encode a

instance : LawfulStored (Array α) where
  decode_encode items := map_decode_encode List.toArray items.toList

instance [NeverNull α] : LawfulStored (Option α) where
  decode_encode
    | none => rfl
    | some a => by
        show decode? (encode a) = some (some a)
        rw [decode?_of_ne_null (NeverNull.encode_ne_null a), decode_encode,
          Option.map_some]

end

instance {α : Type} [Named α] [LawfulNamed α] : LawfulStored α where
  decode_encode a := LawfulNamed.find?_ident a

end InstSelect
