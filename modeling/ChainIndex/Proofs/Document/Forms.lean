import ChainIndex.Correlation.Record
import ChainIndex.Event.Delta
import ChainIndex.Proofs.Json.Stored
import ChainIndex.Proofs.Write.Forms

/-!
The records of documents are read back from their stored forms: what is left out when empty is read as empty.
-/
namespace ChainIndex

namespace Json

section Optional

variable {name key : String} {c : Prop} [Decidable c] {value : Json}

theorem keys_ite_sublist : ((if c then [(name, value)] else []).map Prod.fst).Sublist [name] := by
  split
  · exact List.Sublist.refl _
  · exact List.nil_sublist _

theorem keys_ite_not_sublist : ((if c then [] else [(name, value)]).map Prod.fst).Sublist [name] := by
  split
  · exact List.nil_sublist _
  · exact List.Sublist.refl _

theorem keys_textField_sublist (name text : String) : ((textField name text).map Prod.fst).Sublist [name] :=
  keys_ite_not_sublist

theorem keys_textsField_sublist (name : String) (texts : List String) :
    ((textsField name texts).map Prod.fst).Sublist [name] := keys_ite_not_sublist

@[simp] theorem find?_ite_of_ne (h : name ≠ key) : Dict.find? (if c then [(name, value)] else []) key = none := by
  split <;> simp [Dict.find?, h]

@[simp] theorem find?_ite_not_of_ne (h : name ≠ key) :
    Dict.find? (if c then [] else [(name, value)]) key = none := by
  split <;> simp [Dict.find?, h]

@[simp] theorem find?_textField_of_ne {text : String} (h : name ≠ key) :
    Dict.find? (textField name text) key = none := find?_ite_not_of_ne h

@[simp] theorem find?_textsField_of_ne {texts : List String} (h : name ≠ key) :
    Dict.find? (textsField name texts) key = none := find?_ite_not_of_ne h

/-- A text that is left out when empty is read as the empty one. -/
@[simp] theorem orElse?_textField (name text : String) :
    Slot.orElse? "" str? (.ofFound ((Dict.find? (textField name text) name).map stored)) = some text := by
  unfold textField
  split
  · next h =>
    rw [Dict.find?_nil, Option.map_none, Slot.ofFound_none, Slot.orElse?_absent, String.isEmpty_iff.1 h]
  · rw [Dict.find?, if_pos rfl, Option.map_some, Slot.ofFound_some, Slot.orElse?_given, stored_str, str?]

/-- Texts that are left out when there are none are read as none. -/
@[simp] theorem orElse?_textsField (name : String) (texts : List String) :
    Slot.orElse? [] strings? (.ofFound ((Dict.find? (textsField name texts) name).map stored)) = some texts := by
  unfold textsField
  split
  · next h =>
    rw [Dict.find?_nil, Option.map_none, Slot.ofFound_none, Slot.orElse?_absent, List.isEmpty_iff.1 h]
  · rw [Dict.find?, if_pos rfl, Option.map_some, Slot.ofFound_some, Slot.orElse?_given, stored_strings,
      strings?_strings]

end Optional

end Json

namespace ParsedData

theorem keys_sublist_detailFields (p : ParsedData) :
    (p.detailFields.map Prod.fst).Sublist ["function", "tokens", "dcdtValues", "receivers"] := by
  simp only [detailFields, List.map_append]
  exact (((Json.keys_textField_sublist "function" _).append (Json.keys_textsField_sublist "tokens" _)).append
    (Json.keys_textsField_sublist "dcdtValues" _)).append (Json.keys_textsField_sublist "receivers" _)

theorem ofJson?_stored (p : ParsedData) : ofJson? p.toJson.stored = some p := by
  have hnodup : ((("operation", Json.str p.operation) :: p.detailFields).map Prod.fst).Nodup :=
    List.Nodup.sublist (p.keys_sublist_detailFields.cons_cons "operation") (by decide)
  rw [ofJson?, toJson, Json.record?_stored hnodup]
  simp [fieldNames, Dict.find?, detailFields, Dict.find?_append, Json.str?]

end ParsedData

open Json

namespace TransactionRecord

/-- The record is read back but for its hash, which is the id of the document and no field of it. -/
theorem ofJson?_stored (r : TransactionRecord) (hnum : r.valueNum.isFinite = true) :
    ofJson? r.toJson.stored = some { r with hash := "" } := by
  have hmark : Slot.orElse? false bool? (.ofFound ((Dict.find?
      (if r.hasScResults then [("hasScResults", Json.bool true)] else []) "hasScResults").map stored)) =
      some r.hasScResults := by
    cases r.hasScResults <;> simp [Dict.find?, bool?]
  rw [ofJson?, toJson, record?_stored]
  · -- What stands under each name first, then what its reader makes of it.
    simp only [fieldNames, ParsedData.fieldNames, ParsedData.detailFields, List.cons_append, List.nil_append,
      List.map_cons, List.map_nil, Dict.find?_append, Dict.find?_cons_self, Dict.find?_cons_of_ne, Dict.find?_nil,
      String.reduceEq, ne_eq, not_false_eq_true, find?_ite_of_ne, find?_textField_of_ne, find?_textsField_of_ne,
      Option.none_or, Option.or_none, Option.map_some, Slot.ofFound_some, stored_str, stored_uint64, stored_uint32]
    simp only [Slot.required?_given, str?, uint64?_toNat, uint32?_toNat, double?_stored hnum, hmark, orElse?_textField,
      orElse?_textsField, some_bind]
    rfl
  · refine List.Nodup.sublist ?_ (show fieldNames.Nodup by simp [fieldNames, ParsedData.fieldNames])
    simp only [List.map_append]
    exact (((((List.Sublist.refl _).append keys_ite_sublist).append
      (keys_textField_sublist "relayer" _)).append (keys_textField_sublist "guardian" _)).append
      (List.Sublist.refl ["version", "operation"])).append r.parsed.keys_sublist_detailFields

end TransactionRecord

namespace ScResultRecord

/-- The record is read back but for its hash. -/
theorem ofJson?_stored (r : ScResultRecord) (hnum : r.valueNum.isFinite = true) :
    ofJson? r.toJson.stored = some { r with hash := "" } := by
  rw [ofJson?, toJson, record?_stored]
  · simp only [fieldNames, ParsedData.fieldNames, ParsedData.detailFields, List.cons_append, List.nil_append,
      List.map_cons, List.map_nil, Dict.find?_append, Dict.find?_cons_self, Dict.find?_cons_of_ne, Dict.find?_nil,
      String.reduceEq, ne_eq, not_false_eq_true, find?_textField_of_ne, find?_textsField_of_ne,
      Option.none_or, Option.or_none, Option.map_some, Slot.ofFound_some, stored_str, stored_uint64, stored_uint32]
    simp only [Slot.required?_given, str?, uint64?_toNat, uint32?_toNat, double?_stored hnum, orElse?_textField,
      orElse?_textsField, some_bind]
    rfl
  · refine List.Nodup.sublist ?_ (show fieldNames.Nodup by simp [fieldNames, ParsedData.fieldNames])
    simp only [List.map_append]
    exact ((((((((List.Sublist.refl _).append (keys_textField_sublist "relayer" _)).append
      (keys_textField_sublist "relayedValue" _)).append (keys_textField_sublist "code" _)).append
      (List.Sublist.refl ["data", "prevTxHash", "originalTxHash", "callType"])).append
      (keys_textField_sublist "returnMessage" _)).append (keys_textField_sublist "originalSender" _)).append
      (List.Sublist.refl ["timestamp", "initialTxFee", "operation"])).append r.parsed.keys_sublist_detailFields

end ScResultRecord

namespace NftMetadata

theorem ofJson?_stored (m : NftMetadata) : ofJson? m.toJson.stored = some m := by
  obtain ⟨name, creator, royalties, hash, uris, attributes, tags, metadata⟩ := m
  have hroyalties : Slot.orElse? 0 uint32? (.ofFound ((Dict.find?
      (if royalties = 0 then [] else [("royalties", Json.nat royalties.toNat)]) "royalties").map stored)) =
      some royalties := by
    split
    · next h => rw [h, Dict.find?_nil, Option.map_none, Slot.ofFound_none, Slot.orElse?_absent]
    · simp [Dict.find?]
  have hkeys (last : List (String × Json)) (hlast : (last.map Prod.fst).Sublist ["metadata"]) :
      ((textField "name" name ++ textField "creator" creator ++
        (if royalties = 0 then [] else [("royalties", Json.nat royalties.toNat)]) ++ textField "hash" hash ++
        textsField "uris" uris ++ textField "attributes" attributes ++ textsField "tags" tags ++
        last).map Prod.fst).Nodup := by
    refine List.Nodup.sublist ?_ (show fieldNames.Nodup by simp [fieldNames])
    simp only [List.map_append]
    exact (((((((keys_textField_sublist "name" _).append (keys_textField_sublist "creator" _)).append
      keys_ite_not_sublist).append (keys_textField_sublist "hash" _)).append
      (keys_textsField_sublist "uris" _)).append (keys_textField_sublist "attributes" _)).append
      (keys_textsField_sublist "tags" _)).append hlast
  cases metadata with
  | none =>
    rw [ofJson?, toJson, record?_stored (hkeys [] (List.nil_sublist _))]
    simp [fieldNames, Dict.find?_append, hroyalties]
  | some text =>
    rw [ofJson?, toJson, record?_stored (hkeys _ (List.Sublist.refl _))]
    simp [fieldNames, Dict.find?, Dict.find?_append, hroyalties, nullable?, str?]

end NftMetadata

namespace OwnerData

theorem ofJson?_stored (o : OwnerData) : ofJson? o.toJson.stored = some o := by
  rw [ofJson?, toJson, record?_stored]
  · simp [Dict.find?, str?]
  · refine List.Nodup.sublist ?_ (show ["address", "timestamp", "txHash"].Nodup by simp)
    simp only [List.map_append]
    exact (List.Sublist.refl ["address", "timestamp"]).append (keys_textField_sublist "txHash" _)

end OwnerData

namespace UnDelegateInfo

theorem ofJson?_stored (u : UnDelegateInfo) (hnum : u.valueNum.isFinite = true) :
    ofJson? u.toJson.stored = some u := by
  rw [ofJson?, toJson, record?_stored (by simp)]
  simp [Dict.find?, str?, double?_stored hnum]

end UnDelegateInfo

/-- What is sent to a store, and what its documents hold, comes back from the stored form. A write and a
query come back wherever there is room for their nesting; the two records that are stored under their hash
come back without it. -/
theorem stored_forms_read_back (item : WriteItem) (q : Query) (t : TransactionRecord) (r : ScResultRecord)
    (p : ParsedData) (m : NftMetadata) (o : OwnerData) (u : UnDelegateInfo) (hitem : item.action.Keyed)
    (hq : q.Keyed) (ht : t.valueNum.isFinite = true) (hr : r.valueNum.isFinite = true)
    (hu : u.valueNum.isFinite = true) :
    (∀ room, item.toJson.toValue.depth ≤ room → WriteItem.ofJson? room item.toJson.stored = some item) ∧
      (∀ listed room, q.toJson.toValue.depth ≤ room → Query.ofJson? listed room q.toJson.stored = some q) ∧
      TransactionRecord.ofJson? t.toJson.stored = some { t with hash := "" } ∧
      ScResultRecord.ofJson? r.toJson.stored = some { r with hash := "" } ∧
      ParsedData.ofJson? p.toJson.stored = some p ∧
      NftMetadata.ofJson? m.toJson.stored = some m ∧
      OwnerData.ofJson? o.toJson.stored = some o ∧
      UnDelegateInfo.ofJson? u.toJson.stored = some u :=
  ⟨fun _ h => WriteItem.ofJson?_stored hitem h, fun listed room h => Query.ofJson?_stored listed q hq room h,
    t.ofJson?_stored ht, r.ofJson?_stored hr, p.ofJson?_stored, m.ofJson?_stored, o.ofJson?_stored,
    u.ofJson?_stored hu⟩

/-- A nested document in a merge, the greatest fee with two refunds, and a query in a query, within the room
that a text has; records with and without the fields that may be left out. -/
theorem stored_forms_read_back_nested :
    let doc : Value := .obj [("a", .arr [.real ⟨0x3FF8000000000000⟩, .null, .obj []]), ("b", .neg 6)]
    let fee : FeeWrite := .absolute ⟨Amount.bound - 1, by decide⟩ 5 [("b1", {}), ("b2", { gasRefunded := 7 })] ⟨18⟩
    let item : WriteItem := ⟨"aa", .upsert [.merge doc, .fee fee, .removeWhere "a.b" "k" [doc, .bool true]]⟩
    let query : Query := .all [.all [.term "a" doc, .present "b"], .matchAll]
    let record : TransactionRecord := { hash := "aa", valueNum := ⟨0x3FF8000000000000⟩, relayer := "bb" }
    let result : ScResultRecord := { hash := "b1", parsed := { tokens := ["T-1"] } }
    WriteItem.ofJson? Json.depthLimit item.toJson.stored = some item ∧
      Query.ofJson? false Json.depthLimit query.toJson.stored = some query ∧
      TransactionRecord.ofJson? record.toJson.stored = some { record with hash := "" } ∧
      ScResultRecord.ofJson? result.toJson.stored = some { result with hash := "" } ∧
      NftMetadata.ofJson? ({ royalties := 1, metadata := some "" } : NftMetadata).toJson.stored =
        some { royalties := 1, metadata := some "" } := by
  intro doc fee item query record result
  have hdoc : doc.Ordered := by
    refine ⟨?_, ?_⟩
    · unfold Dict.Sorted
      decide +kernel
    · simp [Value.FieldsOrdered, Value.Ordered, Value.ItemsOrdered, Dict.Sorted]
  have hfee : fee.Keyed := by
    unfold FeeWrite.Keyed Dict.Sorted
    decide +kernel
  have hitem : item.action.Keyed := by
    simp only [item, WriteAction.Keyed, List.forall_mem_cons]
    exact ⟨hdoc, hfee, List.forall_mem_cons.2 ⟨hdoc, List.forall_mem_singleton.2 trivial⟩, nofun⟩
  have hquery : query.Keyed := ⟨⟨hdoc, trivial, trivial⟩, trivial, trivial⟩
  obtain ⟨hwrite, hselect, hrecord, hresult, -, hnft, -⟩ :=
    stored_forms_read_back item query record result {} { royalties := 1, metadata := some "" } {} {} hitem hquery
      (by decide) (by decide) (by decide)
  exact ⟨hwrite _ (by decide +kernel), hselect _ _ (by decide +kernel), hrecord, hresult, hnft⟩

end ChainIndex
