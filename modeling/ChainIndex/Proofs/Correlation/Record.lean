import ChainIndex.Correlation.Record
import ChainIndex.Indexer.Rollback
import ChainIndex.Proofs.Fields

/-!
The documents of records. They are flat, so writing one replaces whole fields; they leave the fields
of fees, of statuses and of types alone; and two records of one transaction have the same fields, but
for the mark of results.
-/
namespace ChainIndex

namespace Json

theorem isPlain_double (x : Double) : (double x).IsPlain := by
  unfold double
  split <;> trivial

theorem isPlain_textField {name text : String} : ∀ e ∈ textField name text, e.2.IsPlain := by
  unfold textField
  split <;> simp [IsPlain]

theorem isPlain_textsField {name : String} {texts : List String} :
    ∀ e ∈ textsField name texts, e.2.IsPlain := by
  unfold textsField
  split <;> simp [IsPlain, strings]

theorem keys_textField_subset {name text : String} {names : List String} (h : name ∈ names) :
    Dict.keys (textField name text) ⊆ names := by
  unfold textField
  split <;> simp [Dict.keys, h]

theorem keys_textsField_subset {name : String} {texts names : List String} (h : name ∈ names) :
    Dict.keys (textsField name texts) ⊆ names := by
  unfold textsField
  split <;> simp [Dict.keys, h]

theorem get?_toValue_obj_eq_none {members : List (String × Json)} {key : String}
    (h : key ∉ Dict.keys members) : (Json.obj members).toValue.get? key = none := by
  rw [get?_toValue_obj, Option.map_eq_none_iff, Dict.find?_eq_none_iff]
  simpa [Dict.keys] using h

theorem get?_toValue_obj_isSome (members : List (String × Json)) (key : String) :
    ((Json.obj members).toValue.get? key).isSome = decide (key ∈ Dict.keys members) := by
  rw [get?_toValue_obj, Option.isSome_map]
  refine Bool.eq_iff_iff.2 ?_
  rw [decide_eq_true_iff]
  refine Dict.has_iff.trans ?_
  simp [Dict.keys]

end Json

namespace ParsedData

theorem isPlain_detailFields (p : ParsedData) : ∀ e ∈ p.detailFields, e.2.IsPlain := by
  intro e he
  simp only [detailFields, List.mem_append] at he
  rcases he with ((he | he) | he) | he
  · exact Json.isPlain_textField e he
  · exact Json.isPlain_textsField e he
  · exact Json.isPlain_textsField e he
  · exact Json.isPlain_textsField e he

theorem keys_detailFields_subset (p : ParsedData) : Dict.keys p.detailFields ⊆ fieldNames := by
  simp only [detailFields, Dict.keys_append, List.append_subset]
  refine ⟨⟨⟨?_, ?_⟩, ?_⟩, ?_⟩
  · exact Json.keys_textField_subset (by simp [fieldNames])
  · exact Json.keys_textsField_subset (by simp [fieldNames])
  · exact Json.keys_textsField_subset (by simp [fieldNames])
  · exact Json.keys_textsField_subset (by simp [fieldNames])

end ParsedData

namespace TransactionRecord

theorem isFlat_toValue (r : TransactionRecord) : r.toJson.toValue.IsFlat := by
  refine Json.isFlat_toValue_obj fun e he => ?_
  simp only [List.mem_append] at he
  rcases he with ((((he | he) | he) | he) | he) | he
  · simp only [List.mem_cons, List.not_mem_nil, or_false] at he
    rcases he with rfl | rfl | rfl | rfl | rfl | rfl | rfl | rfl | rfl | rfl | rfl | rfl | rfl | rfl | rfl | rfl <;>
      first | trivial | exact Json.isPlain_double r.valueNum
  · split at he
    · simp only [List.mem_singleton] at he
      subst he
      trivial
    · cases he
  · exact Json.isPlain_textField e he
  · exact Json.isPlain_textField e he
  · simp only [List.mem_cons, List.not_mem_nil, or_false] at he
    rcases he with rfl | rfl <;> trivial
  · exact r.parsed.isPlain_detailFields e he

theorem get?_toValue_eq_none (r : TransactionRecord) {key : String} (hk : key ∉ fieldNames) :
    r.toJson.toValue.get? key = none := by
  refine Json.get?_toValue_obj_eq_none fun h => hk (List.Subset.trans ?_ (List.Subset.refl _) h)
  simp only [Dict.keys_append, List.append_subset]
  refine ⟨⟨⟨⟨⟨?_, ?_⟩, ?_⟩, ?_⟩, ?_⟩, ?_⟩
  · simp [Dict.keys, fieldNames]
  · split <;> simp [Dict.keys, fieldNames]
  · exact Json.keys_textField_subset (by simp [fieldNames])
  · exact Json.keys_textField_subset (by simp [fieldNames])
  · simp [Dict.keys, fieldNames, ParsedData.fieldNames]
  · exact List.Subset.trans r.parsed.keys_detailFields_subset (List.subset_append_right _ _)

theorem find?_mark (b : Bool) (key : String) :
    Dict.find? (if b then [("hasScResults", Json.bool true)] else []).reverse key =
      if b ∧ key = Rollback.hasScResults then some (.bool true) else none := by
  cases b <;> simp [Dict.find?, Rollback.hasScResults, eq_comm]

/-- A record shows the mark of results, or has no such field. -/
theorem get?_toValue_hasScResults (r : TransactionRecord) :
    r.toJson.toValue.get? Rollback.hasScResults = if r.hasScResults then some (.bool true) else none := by
  have hnot : Rollback.hasScResults ∉ ParsedData.fieldNames := by decide
  have hdetails := Dict.find?_reverse_eq_none r.parsed.keys_detailFields_subset hnot
  have hrelayer : Dict.find? (Json.textField "relayer" r.relayer).reverse Rollback.hasScResults = none :=
    Dict.find?_reverse_eq_none (Json.keys_textField_subset (List.mem_singleton_self _)) (by decide)
  have hguardian : Dict.find? (Json.textField "guardian" r.guardian).reverse Rollback.hasScResults = none :=
    Dict.find?_reverse_eq_none (Json.keys_textField_subset (List.mem_singleton_self _)) (by decide)
  rw [toJson, Json.get?_toValue_obj]
  simp only [List.reverse_append, Dict.find?_append, find?_mark, hdetails, hrelayer, hguardian]
  cases r.hasScResults <;> simp [Dict.find?, Rollback.hasScResults, Json.toValue]

/-- Apart from its mark a record does not depend on whether there are results. -/
theorem get?_toValue_of_ne (r : TransactionRecord) (b : Bool) {key : String}
    (hk : key ≠ Rollback.hasScResults) :
    ({ r with hasScResults := b } : TransactionRecord).toJson.toValue.get? key =
      r.toJson.toValue.get? key := by
  simp only [toJson, Json.get?_toValue_obj, List.reverse_append, Dict.find?_append, find?_mark, hk,
    and_false, ↓reduceIte]

/-- Which fields a record has depends on the transaction only. -/
theorem isSome_get?_toValue {r s : TransactionRecord} (hmark : r.hasScResults = s.hasScResults)
    (hrelayer : r.relayer = s.relayer) (hguardian : r.guardian = s.guardian) (hparsed : r.parsed = s.parsed)
    (key : String) : (r.toJson.toValue.get? key).isSome = (s.toJson.toValue.get? key).isSome := by
  rw [toJson, toJson, Json.get?_toValue_obj_isSome, Json.get?_toValue_obj_isSome]
  simp only [hmark, hrelayer, hguardian, hparsed, Dict.keys_append]
  rfl

end TransactionRecord

namespace ScResultRecord

theorem isRecord_toValue (r : ScResultRecord) : r.toJson.toValue.IsRecord := by
  rw [toJson, Json.toValue]
  exact ⟨_, rfl, (Json.ordered_membersToValue _ [] List.Pairwise.nil trivial).1⟩

theorem get?_toValue_eq_none (r : ScResultRecord) {key : String} (hk : key ∉ fieldNames) :
    r.toJson.toValue.get? key = none := by
  refine Json.get?_toValue_obj_eq_none fun h => hk (List.Subset.trans ?_ (List.Subset.refl _) h)
  simp only [Dict.keys_append, List.append_subset]
  refine ⟨⟨⟨⟨⟨⟨⟨⟨?_, ?_⟩, ?_⟩, ?_⟩, ?_⟩, ?_⟩, ?_⟩, ?_⟩, ?_⟩
  · simp [Dict.keys, fieldNames]
  · exact Json.keys_textField_subset (by simp [fieldNames])
  · exact Json.keys_textField_subset (by simp [fieldNames])
  · exact Json.keys_textField_subset (by simp [fieldNames])
  · simp [Dict.keys, fieldNames]
  · exact Json.keys_textField_subset (by simp [fieldNames])
  · exact Json.keys_textField_subset (by simp [fieldNames])
  · simp [Dict.keys, fieldNames, ParsedData.fieldNames]
  · exact List.Subset.trans r.parsed.keys_detailFields_subset (List.subset_append_right _ _)

/-- A result names the transaction it belongs to. -/
theorem get?_toValue_originTxHash (r : ScResultRecord) :
    r.toJson.toValue.get? Rollback.originTxHash = some (.str r.originTxHash) := by
  have hdetails : Dict.find? r.parsed.detailFields.reverse Rollback.originTxHash = none :=
    Dict.find?_reverse_eq_none r.parsed.keys_detailFields_subset (by decide)
  have htext (name text : String) (hn : Rollback.originTxHash ∉ [name]) :
      Dict.find? (Json.textField name text).reverse Rollback.originTxHash = none :=
    Dict.find?_reverse_eq_none (Json.keys_textField_subset (List.mem_singleton_self name)) hn
  rw [toJson, Json.get?_toValue_obj]
  simp only [List.reverse_append, Dict.find?_append, hdetails, htext "returnMessage" _ (by decide),
    htext "originalSender" _ (by decide)]
  simp [Dict.find?, Rollback.originTxHash, Json.toValue]

end ScResultRecord
end ChainIndex
