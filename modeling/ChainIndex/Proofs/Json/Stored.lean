import ChainIndex.Proofs.Fields
import ChainIndex.Proofs.Json.Records

/-!
A form as a document holds it: its members by name and in order. A record is read from that as from the
form itself, and a document that a form carries is found in it as it was.
-/
namespace ChainIndex

namespace Value

mutual

def depth : Value → Nat
  | .arr items => itemsDepth items + 1
  | .obj fields => fieldsDepth fields + 1
  | _ => 0

def itemsDepth : List Value → Nat
  | [] => 0
  | v :: rest => max (depth v) (itemsDepth rest)

def fieldsDepth : List (String × Value) → Nat
  | [] => 0
  | (_, v) :: rest => max (depth v) (fieldsDepth rest)

end

variable {v : Value} {items : List Value} {fields : List (String × Value)}

theorem depth_lt_of_mem_items (h : v ∈ items) : v.depth < (Value.arr items).depth := by
  rw [depth]
  refine Nat.lt_succ_of_le ?_
  induction items with
  | nil => cases h
  | cons w rest ih =>
    rw [itemsDepth]
    rcases List.mem_cons.1 h with rfl | h
    · exact Nat.le_max_left _ _
    · exact Nat.le_trans (ih h) (Nat.le_max_right _ _)

/-- What an object holds is less deep than the object. -/
theorem depth_lt_of_find? {key : String} (h : Dict.find? fields key = some v) :
    v.depth < (Value.obj fields).depth := by
  rw [depth]
  refine Nat.lt_succ_of_le ?_
  have hmem := Dict.mem_of_find? h
  clear h
  induction fields with
  | nil => cases hmem
  | cons entry rest ih =>
    obtain ⟨k, w⟩ := entry
    rw [fieldsDepth]
    rcases List.mem_cons.1 hmem with h | h
    · cases h
      exact Nat.le_max_left _ _
    · exact Nat.le_trans (ih h) (Nat.le_max_right _ _)

theorem itemsToJson_eq_map (items : List Value) : itemsToJson items = items.map toJson := by
  induction items with
  | nil => rfl
  | cons v rest ih => rw [itemsToJson, ih, List.map_cons]

theorem fieldsToJson_eq_map (fields : List (String × Value)) :
    fieldsToJson fields = fields.map fun e => (e.1, e.2.toJson) := by
  induction fields with
  | nil => rfl
  | cons e rest ih => rw [fieldsToJson, ih, List.map_cons]

mutual

/-- A document has only tokens that stand for something. -/
theorem readable_toJson : (v : Value) → (room : Nat) → v.depth ≤ room → v.toJson.readable room = true
  | .arr items, room, h => by
    rw [depth] at h
    rw [toJson, Json.readable, readable_itemsToJson items (room - 1) (by omega), Bool.and_true]
    exact decide_eq_true (by omega)
  | .obj fields, room, h => by
    rw [depth] at h
    rw [toJson, Json.readable, readable_fieldsToJson fields (room - 1) (by omega), Bool.and_true]
    exact decide_eq_true (by omega)
  | .null, _, _ | .bool _, _, _ | .nat _, _, _ | .neg _, _, _ | .real _, _, _ | .str _, _, _ => by
    simp [toJson, Json.readable]

theorem readable_itemsToJson : (items : List Value) → (room : Nat) → itemsDepth items ≤ room →
    Json.itemsReadable room (itemsToJson items) = true
  | [], _, _ => by simp [itemsToJson, Json.itemsReadable]
  | v :: rest, room, h => by
    rw [itemsDepth] at h
    rw [itemsToJson, Json.itemsReadable, readable_toJson v room (by omega),
      readable_itemsToJson rest room (by omega), Bool.and_true]

theorem readable_fieldsToJson : (fields : List (String × Value)) → (room : Nat) → fieldsDepth fields ≤ room →
    Json.membersReadable room (fieldsToJson fields) = true
  | [], _, _ => by simp [fieldsToJson, Json.membersReadable]
  | (k, v) :: rest, room, h => by
    rw [fieldsDepth] at h
    rw [fieldsToJson, Json.membersReadable, readable_toJson v room (by omega),
      readable_fieldsToJson rest room (by omega), Bool.and_true]

end

theorem ofInt_toNat (n : UInt64) : ofInt n.toNat = .nat n := by
  change (if n.toNat < UInt64.size then Value.nat n.toNat.toUInt64 else _) = _
  rw [if_pos n.toNat_lt]
  exact congrArg Value.nat UInt64.ofNat_toNat

mutual

/-- A document in order is what its form carries. -/
theorem toValue_toJson : (v : Value) → v.Ordered → v.toJson.toValue = v
  | .arr items, h => by rw [toJson, Json.toValue, itemsToValue_itemsToJson items h]
  | .obj fields, h => by
    rw [toJson, Json.toValue, Json.membersToValue_eq_extend, fieldsToValue_fieldsToJson fields h.2]
    exact congrArg Value.obj h.1.ofList_eq_self
  | .nat n, _ => by
    rw [toJson, Json.toValue, ofInt_toNat]
  | .neg n, _ => by
    rw [toJson, Json.toValue, ofInt]
    exact dif_pos n.isLt
  | .null, _ | .bool _, _ | .real _, _ | .str _, _ => by simp [toJson, Json.toValue]

theorem itemsToValue_itemsToJson : (items : List Value) → ItemsOrdered items →
    Json.itemsToValue (itemsToJson items) = items
  | [], _ => by simp [itemsToJson, Json.itemsToValue]
  | v :: rest, h => by
    rw [itemsToJson, Json.itemsToValue, toValue_toJson v h.1, itemsToValue_itemsToJson rest h.2]

theorem fieldsToValue_fieldsToJson : (fields : List (String × Value)) → FieldsOrdered fields →
    ((fieldsToJson fields).map fun e => (e.1, e.2.toValue)) = fields
  | [], _ => by simp [fieldsToJson]
  | (k, v) :: rest, h => by
    rw [fieldsToJson, List.map_cons, toValue_toJson v h.1, fieldsToValue_fieldsToJson rest h.2]

end

end Value

namespace Json

def stored (j : Json) : Json := j.toValue.toJson

theorem stored_toJson {v : Value} (h : v.Ordered) : stored v.toJson = v.toJson := by
  rw [stored, v.toValue_toJson h]

@[simp] theorem stored_str (s : String) : stored (.str s) = .str s := by
  simp [stored, toValue, Value.toJson]

@[simp] theorem stored_bool (b : Bool) : stored (.bool b) = .bool b := by
  simp [stored, toValue, Value.toJson]

@[simp] theorem stored_uint64 (n : UInt64) : stored (.nat n.toNat) = .nat n.toNat := by
  rw [stored, nat, toValue, Value.ofInt_toNat, Value.toJson]

@[simp] theorem stored_uint32 (n : UInt32) : stored (.nat n.toNat) = .nat n.toNat := stored_uint64 n.toUInt64

theorem double?_stored {x : Double} (h : x.isFinite = true) : (double x).stored.double? = some x := by
  rw [double, if_pos h, stored, toValue, Value.toJson, double?]

theorem itemsToValue_eq_map (items : List Json) : itemsToValue items = items.map toValue := by
  induction items with
  | nil => rfl
  | cons j rest ih => rw [itemsToValue, ih, List.map_cons]

theorem stored_arr (items : List Json) : stored (.arr items) = .arr (items.map stored) := by
  rw [stored, toValue, itemsToValue_eq_map, Value.toJson, Value.itemsToJson_eq_map, List.map_map]
  rfl

@[simp] theorem stored_strings (texts : List String) : stored (.strings texts) = .strings texts := by
  rw [strings, stored_arr, List.map_map]
  exact congrArg arr (List.map_congr_left fun text _ => stored_str text)

section Members

variable {members : List (String × Json)} {first second : String}

theorem stored_single (name : String) (j : Json) : stored (.obj [(name, j)]) = .obj [(name, j.stored)] := by
  simp [stored, toValue, membersToValue, Dict.insert, Value.toJson, Value.fieldsToJson]

theorem stored_pair (h : first < second) (x y : Json) :
    stored (.obj [(first, x), (second, y)]) = .obj [(first, x.stored), (second, y.stored)] := by
  have hne : first ≠ second := fun he => String.lt_irrefl first (he ▸ h)
  have hnot : ¬second < first := fun hlt => String.lt_irrefl first (String.lt_trans h hlt)
  simp [stored, toValue, membersToValue, Dict.insert, hne, hnot, Value.toJson, Value.fieldsToJson]

theorem stored_swapped (h : second < first) (x y : Json) :
    stored (.obj [(first, x), (second, y)]) = .obj [(second, y.stored), (first, x.stored)] := by
  have hne : first ≠ second := fun he => String.lt_irrefl first (he ▸ h)
  simp [stored, toValue, membersToValue, Dict.insert, hne, h, Value.toJson, Value.fieldsToJson]

/-- A stored object has the members of the form, each under its name. -/
theorem stored_obj (h : (members.map Prod.fst).Nodup) :
    ∃ fields : List (String × Json), stored (.obj members) = .obj fields ∧ (fields.map Prod.fst).Nodup ∧
      ∀ name, Dict.find? fields name = (Dict.find? members name).map stored := by
  have hrecord : (Json.obj members).toValue.IsRecord :=
    ⟨_, by rw [toValue], (ordered_membersToValue members [] List.Pairwise.nil trivial).1⟩
  obtain ⟨fields, hvalue, hsorted⟩ := hrecord
  refine ⟨fields.map fun e => (e.1, e.2.toJson), ?_, ?_, fun name => ?_⟩
  · rw [stored, hvalue, Value.toJson, Value.fieldsToJson_eq_map]
  · rw [List.map_map]
    exact hsorted.nodup_keys
  · have hfound := get?_toValue_obj members name
    rw [hvalue, Value.get?_obj, Dict.find?_perm (List.reverse_perm members) h] at hfound
    rw [Dict.find?_map fields fun _ v => v.toJson, hfound, Option.map_map]
    rfl

/-- The fields of a record, from its stored form. -/
theorem named?_stored (h : (members.map Prod.fst).Nodup) (names : List String) :
    named? names (stored (.obj members)) =
      some (names.map fun name => .ofFound ((Dict.find? members name).map stored)) := by
  obtain ⟨fields, hobj, hnodup, hfind⟩ := stored_obj h
  rw [hobj, named?_obj hnodup]
  simp only [hfind]

/-- So the fields of a record are found in it as in the form. -/
theorem record?_stored (h : (members.map Prod.fst).Nodup) (names : List String) :
    record? names (stored (.obj members)) =
      some (names.map fun name => .ofFound ((Dict.find? members name).map stored)) := by
  obtain ⟨fields, hobj, hnodup, hfind⟩ := stored_obj h
  rw [hobj, record?_obj hnodup]
  simp only [hfind]

end Members

end Json
end ChainIndex
