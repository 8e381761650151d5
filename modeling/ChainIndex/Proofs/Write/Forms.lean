import ChainIndex.Proofs.Json.Stored
import ChainIndex.Write.Action
import ChainIndex.Write.Query

/-!
Writes and queries are read back from their stored forms, whatever documents they carry. Reading takes as
much room as the form is deep.
-/
namespace ChainIndex

namespace Json

variable {members : List (String × Json)} {items : List Json} {j : Json} {room : Nat}

theorem readable_stored (h : j.toValue.depth ≤ room) : j.stored.readable room = true :=
  j.toValue.readable_toJson room h

theorem room_of_obj (h : (Json.obj members).toValue.depth ≤ room) : room ≠ 0 := by
  rw [toValue, Value.depth] at h
  omega

theorem room_of_arr (h : (Json.arr items).toValue.depth ≤ room) : room ≠ 0 := by
  rw [toValue, Value.depth] at h
  omega

/-- There is room for what a member holds once the object is open. -/
theorem depth_member_le (h : (Json.obj members).toValue.depth ≤ room) (hnodup : (members.map Prod.fst).Nodup)
    (name : String) (hj : (name, j) ∈ members) : j.toValue.depth ≤ room - 1 := by
  have hfound := get?_toValue_obj members name
  rw [Dict.find?_perm (List.reverse_perm members) hnodup, Dict.find?_of_mem hnodup hj, Option.map_some] at hfound
  rw [toValue] at h hfound
  exact Nat.le_sub_one_of_lt (Nat.lt_of_lt_of_le (Value.depth_lt_of_find? hfound) h)

theorem depth_item_le (h : (Json.arr items).toValue.depth ≤ room) (hj : j ∈ items) : j.toValue.depth ≤ room - 1 := by
  rw [toValue, itemsToValue_eq_map] at h
  exact Nat.le_sub_one_of_lt (Nat.lt_of_lt_of_le (Value.depth_lt_of_mem_items (List.mem_map_of_mem hj)) h)

theorem value?_stored {v : Value} (hv : v.Ordered) (h : v.toJson.toValue.depth ≤ room) :
    value? room v.toJson.stored = some v := by
  rw [value?, if_pos (readable_stored h), stored_toJson hv, v.toValue_toJson hv]

theorem values?_stored {vs : List Value} (hv : ∀ v ∈ vs, v.Ordered)
    (h : (Json.arr (vs.map Value.toJson)).toValue.depth ≤ room) :
    values? room (Json.arr (vs.map Value.toJson)).stored = some vs := by
  have harr : Json.arr (vs.map Value.toJson) = (Value.arr vs).toJson := by
    rw [Value.toJson, Value.itemsToJson_eq_map]
  have hordered : (Value.arr vs).Ordered := Value.itemsOrdered_iff.2 hv
  rw [harr] at h ⊢
  rw [values?, value?_stored hordered h]
  rfl

/-- A dictionary keeps its entries as they are. -/
theorem stored_dict {α : Type} {d : Dict α} (hd : d.Sorted) (f : α → Json) :
    stored (.obj (d.map fun (k, v) => (k, f v))) = .obj (d.map fun (k, v) => (k, (f v).stored)) := by
  have hvalues : ((d.map fun (k, v) => (k, f v)).map fun e => (e.1, e.2.toValue)) =
      d.map fun e => (e.1, (f e.2).toValue) := by
    rw [List.map_map]
    rfl
  have hsorted : Dict.Sorted (d.map fun e => (e.1, (f e.2).toValue)) := hd.map fun _ v => (f v).toValue
  rw [stored, toValue, membersToValue_eq_extend, hvalues]
  change (Value.obj (Dict.ofList _)).toJson = _
  rw [hsorted.ofList_eq_self, Value.toJson, Value.fieldsToJson_eq_map, List.map_map]
  rfl

end Json

namespace Refund

theorem ofJson?_stored (r : Refund) : ofJson? r.toJson.stored = some r := by
  rw [ofJson?, toJson, Json.record?_stored (by simp)]
  simp [Dict.find?]

end Refund

namespace StatusInfo

theorem ofJson?_stored (s : StatusInfo) : ofJson? s.toJson.stored = some s := by
  rw [ofJson?, toJson, Json.record?_stored (by simp)]
  simp [fieldNames, Dict.find?, Json.str?, Json.bool?]

end StatusInfo

namespace FeeWrite

def Keyed : FeeWrite → Prop
  | absolute _ _ refunds _ => refunds.Sorted
  | _ => True

theorem Mode.ofJson?_label (held : Bool) (m : Mode) : ofJson? held (.str m.label) = some m := by
  cases m <;> simp [ofJson?, Json.headTag?, all, label]

@[simp] theorem denomination?_places (d : Denomination) : denomination? (.nat d.places.toNat) = some d := by
  simp [denomination?]

section Members

variable {held : Bool} {room : Nat} {members : List (String × Json)} {m : Mode}

/-- Once the mode is known the fields are read. -/
theorem ofJson?_mode (h : (Json.obj members).toValue.depth ≤ room) (hnodup : (members.map Prod.fst).Nodup)
    (hmode : Dict.find? members "mode" = some (.str m.label)) :
    ofJson? held room (Json.obj members).stored = ofFields? m (Json.obj members).stored := by
  have hread := Json.readable_stored h
  obtain ⟨fields, hobj, hfields, hfind⟩ := Json.stored_obj hnodup
  rw [hobj] at hread ⊢
  rw [ofJson?, if_pos hread]
  simp [Json.slot?_eq hfields, hfind, hmode, Mode.ofJson?_label]

end Members

theorem dict?_refunds {refunds : Dict Refund} (h : refunds.Sorted) :
    Json.dict? Refund.ofJson? (Json.obj (refunds.map fun (id, r) => (id, r.toJson))).stored = some refunds := by
  rw [Json.stored_dict h, Json.dict?_map h Refund.ofJson?_stored]

theorem ofJson?_stored (held : Bool) {room : Nat} {w : FeeWrite} (hw : w.Keyed) (h : w.toJson.toValue.depth ≤ room) :
    ofJson? held room w.toJson.stored = some w := by
  cases w with
  | absolute fee gasUsed refunds d =>
    rw [toJson] at h ⊢
    rw [ofJson?_mode h (by simp) rfl, ofFields?, Json.record?_stored (by simp)]
    simp [Dict.find?, dict?_refunds hw]
  | relativeAdjust id refund d =>
    rw [toJson] at h ⊢
    rw [ofJson?_mode h (by simp) rfl, ofFields?, Json.record?_stored (by simp)]
    simp [Dict.find?, Json.str?, Refund.ofJson?_stored]
  | revertRefund id d =>
    rw [toJson] at h ⊢
    rw [ofJson?_mode h (by simp) rfl, ofFields?, Json.record?_stored (by simp)]
    simp [Dict.find?, Json.str?]

end FeeWrite

namespace Mutation

def Keyed : Mutation → Prop
  | merge patch => patch.Ordered
  | mergeIfAbsent patch => patch.Ordered
  | set _ value => value.Ordered
  | addToSet _ values => ∀ v ∈ values, v.Ordered
  | removeWhere _ _ values => ∀ v ∈ values, v.Ordered
  | fee write => write.Keyed
  | _ => True

theorem stored_tag (name : String) (args : Json) :
    (toJson.tag name args).stored = .obj [("args", args.stored), ("op", .str name)] := by
  rw [toJson.tag, Json.stored_swapped (by decide), Json.stored_str]

/-- The arguments come before the kind, so they are held back, and all of them must be readable. -/
theorem tagged?_tag {room : Nat} {args : Json} (name : String) (held : Bool) (h : args.toValue.depth ≤ room) :
    (toJson.tag name args).stored.tagged? names "op" "args" room held = some (name, some args.stored, true) := by
  rw [stored_tag, Json.tagged?]
  simp [Json.slot?_eq, Dict.find?, Json.tagName?, Json.variantName?, Json.readable_stored h]

theorem depth_args_le {room : Nat} {name : String} {args : Json} (h : (toJson.tag name args).toValue.depth ≤ room) :
    args.toValue.depth ≤ room - 1 := Json.depth_member_le h (by simp) "args" (by simp)

theorem ofJson?_tag {room : Nat} {name : String} {args : Json} (held : Bool)
    (h : (toJson.tag name args).toValue.depth ≤ room) :
    ofJson? room held (toJson.tag name args).stored = ofArgs? name (room - 1) true args.stored := by
  rw [ofJson?, tagged?_tag name held (depth_args_le h)]
  simp

theorem ofJson?_stored (held : Bool) {room : Nat} {m : Mutation} (hm : m.Keyed) (h : m.toJson.toValue.depth ≤ room) :
    ofJson? room held m.toJson.stored = some m := by
  cases m with
  | merge patch =>
    rw [toJson] at h ⊢
    rw [ofJson?_tag held h, ofArgs?, Json.value?_stored hm (depth_args_le h), Option.map_some]
  | mergeIfAbsent patch =>
    rw [toJson] at h ⊢
    rw [ofJson?_tag held h, ofArgs?, Json.value?_stored hm (depth_args_le h), Option.map_some]
  | set field value =>
    rw [toJson] at h ⊢
    have hvalue := Json.value?_stored hm (Json.depth_member_le (depth_args_le h) (by simp) "value" (by simp))
    rw [ofJson?_tag held h, ofArgs?, Json.named?_stored (by simp)]
    simp [Dict.find?, Json.str?, hvalue]
  | unset field =>
    rw [toJson] at h ⊢
    rw [ofJson?_tag held h, ofArgs?, Json.named?_stored (by simp)]
    simp [Dict.find?, Json.str?]
  | addToSet field values =>
    rw [toJson] at h ⊢
    have hvalues := Json.values?_stored hm (Json.depth_member_le (depth_args_le h) (by simp) "values" (by simp))
    rw [ofJson?_tag held h, ofArgs?, Json.named?_stored (by simp)]
    simp [Dict.find?, Json.str?, hvalues]
  | removeWhere field key values =>
    rw [toJson] at h ⊢
    have hvalues := Json.values?_stored hm (Json.depth_member_le (depth_args_le h) (by simp) "values" (by simp))
    rw [ofJson?_tag held h, ofArgs?, Json.named?_stored (by simp)]
    simp [Dict.find?, Json.str?, hvalues]
  | setRole role address granted =>
    rw [toJson] at h ⊢
    rw [ofJson?_tag held h, ofArgs?, Json.named?_stored (by simp)]
    simp [Dict.find?, Json.str?, Json.bool?]
  | fee write =>
    rw [toJson] at h ⊢
    rw [ofJson?_tag held h, ofArgs?, FeeWrite.ofJson?_stored true hm (depth_args_le h), Option.map_some]
  | latchStatus signal =>
    rw [toJson] at h ⊢
    rw [ofJson?_tag held h, ofArgs?, StatusInfo.ofJson?_stored, Option.map_some]

end Mutation

namespace WriteAction

def Keyed : WriteAction → Prop
  | overwrite doc => doc.Ordered
  | upsert ms => ∀ m ∈ ms, m.Keyed
  | update ms => ∀ m ∈ ms, m.Keyed
  | delete => True

/-- Mutations are read back from what is stored of them, with room for their depth. -/
theorem list?_mutations {ms : List Mutation} {room : Nat} (hms : ∀ m ∈ ms, m.Keyed)
    (h : (Json.arr (ms.map Mutation.toJson)).toValue.depth ≤ room - 1) :
    (Json.arr (ms.map Mutation.toJson)).stored.list? (Mutation.ofJson? (room - 2) false) = some ms := by
  rw [Json.stored_arr, List.map_map]
  exact Json.list?_map_of_mem fun m hm =>
    Mutation.ofJson?_stored false (hms m hm) (Json.depth_item_le h (List.mem_map_of_mem hm))

/-- The kind comes before the body, so nothing is held back. -/
theorem tagged?_body (kind : String) (body : Json) (room : Nat) :
    (Json.obj [("action", .str kind), ("body", body)]).stored.tagged? names "action" "body" room false =
      some (kind, some body.stored, false) := by
  rw [Json.stored_pair (by decide), Json.stored_str, Json.tagged?]
  simp [Json.slot?_eq, Dict.find?, Json.tagName?, Json.variantName?]

/-- A deletion has no body. -/
theorem tagged?_delete (room : Nat) :
    delete.toJson.stored.tagged? names "action" "body" room false = some ("delete", none, false) := by
  rw [toJson, Json.stored_single, Json.stored_str, Json.tagged?]
  simp [Json.slot?_eq, Dict.find?, Json.tagName?, Json.variantName?]

theorem ofJson?_stored {room : Nat} {a : WriteAction} (ha : a.Keyed) (h : a.toJson.toValue.depth ≤ room) :
    ofJson? room a.toJson.stored = some a := by
  cases a with
  | overwrite doc =>
    rw [toJson] at h ⊢
    rw [ofJson?, tagged?_body]
    simp [Json.value?_stored ha (Json.depth_member_le h (by simp) "body" (by simp))]
  | upsert ms =>
    rw [toJson] at h ⊢
    rw [ofJson?, tagged?_body]
    simp [list?_mutations ha (Json.depth_member_le h (by simp) "body" (by simp))]
  | update ms =>
    rw [toJson] at h ⊢
    rw [ofJson?, tagged?_body]
    simp [list?_mutations ha (Json.depth_member_le h (by simp) "body" (by simp))]
  | delete =>
    rw [ofJson?, tagged?_delete]
    rfl

end WriteAction

namespace WriteItem

theorem ofJson?_stored {room : Nat} {item : WriteItem} (ha : item.action.Keyed)
    (h : item.toJson.toValue.depth ≤ room) : ofJson? room item.toJson.stored = some item := by
  rw [toJson] at h ⊢
  have haction := WriteAction.ofJson?_stored ha (Json.depth_member_le h (by simp) "action" (by simp))
  rw [ofJson?, Json.record?_stored (by simp)]
  simp [Dict.find?, Json.str?, haction]

end WriteItem

namespace Query

mutual

def Keyed : Query → Prop
  | .term _ value => value.Ordered
  | .terms _ values => ∀ v ∈ values, v.Ordered
  | .all queries => AllKeyed queries
  | _ => True

def AllKeyed : List Query → Prop
  | [] => True
  | q :: rest => q.Keyed ∧ AllKeyed rest

end

section Steps

variable {listed : Bool} {room : Nat}

theorem fields?_stored {members : List (String × Json)} (h : (Json.obj members).toValue.depth ≤ room)
    (hnodup : (members.map Prod.fst).Nodup) (names : List String) :
    fields? listed room names (Json.obj members).stored =
      some (names.map fun name => .ofFound ((Dict.find? members name).map Json.stored)) := by
  rw [fields?, if_neg (Json.room_of_obj h), Json.record?_stored hnodup, Json.named?_stored hnodup, ite_self]

theorem ofJson?_args {name : String} {args : Json} (h : (Json.obj [(name, args)]).toValue.depth ≤ room) :
    ofJson? listed room (Json.obj [(name, args)]).stored = ofArgs? listed (room - 1) name args.stored := by
  rw [Json.stored_single, ofJson?, if_neg (Json.room_of_obj h)]

theorem depth_args_le {name : String} {args : Json} (h : (Json.obj [(name, args)]).toValue.depth ≤ room) :
    args.toValue.depth ≤ room - 1 := Json.depth_member_le h (by simp) name (by simp)

end Steps

mutual

theorem ofJson?_stored (listed : Bool) : (q : Query) → q.Keyed → (room : Nat) → q.toJson.toValue.depth ≤ room →
    ofJson? listed room q.toJson.stored = some q
  | .matchAll, _, room, _ => by
    rw [toJson, Json.stored_str, ofJson?]
  | .term field value, hq, room, h => by
    rw [toJson] at h ⊢
    have hvalue := Json.value?_stored hq (Json.depth_member_le (depth_args_le h) (by simp) "value" (by simp))
    rw [ofJson?_args h, ofArgs?, fields?_stored (depth_args_le h) (by simp)]
    simp [Dict.find?, Json.str?, hvalue]
  | .terms field values, hq, room, h => by
    rw [toJson] at h ⊢
    have hvalues := Json.values?_stored hq (Json.depth_member_le (depth_args_le h) (by simp) "values" (by simp))
    rw [ofJson?_args h, ofArgs?, fields?_stored (depth_args_le h) (by simp)]
    simp [Dict.find?, Json.str?, hvalues]
  | .present field, _, room, h => by
    rw [toJson] at h ⊢
    rw [ofJson?_args h, ofArgs?, fields?_stored (depth_args_le h) (by simp)]
    simp [Dict.find?, Json.str?]
  | .all queries, hq, room, h => by
    rw [toJson] at h ⊢
    have hargs := depth_args_le h
    have hqueries := queriesOfJson?_stored listed queries hq (room - 1 - 1) fun j hj => Json.depth_item_le hargs hj
    rw [ofJson?_args h, Json.stored_arr, ofArgs?, if_neg (Json.room_of_arr hargs), hqueries]
    rfl

theorem queriesOfJson?_stored (listed : Bool) : (queries : List Query) → AllKeyed queries → (room : Nat) →
    (∀ j ∈ queriesToJson queries, j.toValue.depth ≤ room) →
    queriesOfJson? listed room ((queriesToJson queries).map Json.stored) = some queries
  | [], _, _, _ => by simp [queriesToJson, queriesOfJson?]
  | q :: rest, hq, room, h => by
    rw [queriesToJson] at h ⊢
    obtain ⟨hfirst, hrest⟩ := List.forall_mem_cons.1 h
    rw [List.map_cons, queriesOfJson?, ofJson?_stored listed q hq.1 room hfirst,
      queriesOfJson?_stored listed rest hq.2 room hrest]
    rfl

end

end Query

end ChainIndex
