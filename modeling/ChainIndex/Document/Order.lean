import ChainIndex.Dict.Lemmas
import ChainIndex.Document.Value

/-!
Documents whose objects are in key order throughout. Every text is read as one of them, so equal
documents are equal values up to the sign of zero.
-/
namespace ChainIndex

namespace Value

mutual

/-- Every object in the document has its keys in order, each of them once. -/
def Ordered : Value → Prop
  | .arr items => ItemsOrdered items
  | .obj fields => Dict.Sorted fields ∧ FieldsOrdered fields
  | _ => True

def ItemsOrdered : List Value → Prop
  | [] => True
  | v :: rest => Ordered v ∧ ItemsOrdered rest

def FieldsOrdered : List (String × Value) → Prop
  | [] => True
  | (_, v) :: rest => Ordered v ∧ FieldsOrdered rest

end

theorem itemsOrdered_iff {items : List Value} : ItemsOrdered items ↔ ∀ v ∈ items, v.Ordered := by
  induction items with
  | nil => simp [ItemsOrdered]
  | cons v rest ih => simp [ItemsOrdered, ih]

theorem fieldsOrdered_iff {fields : List (String × Value)} :
    FieldsOrdered fields ↔ ∀ e ∈ fields, e.2.Ordered := by
  induction fields with
  | nil => simp [FieldsOrdered]
  | cons e rest ih => simp [FieldsOrdered, ih]

theorem FieldsOrdered.insert {fields : Dict Value} (h : FieldsOrdered fields) (key : String)
    {value : Value} (hv : value.Ordered) : FieldsOrdered (Dict.insert fields key value) := by
  refine fieldsOrdered_iff.2 fun e mem => ?_
  rcases Dict.eq_or_mem_of_mem_insert mem with rfl | mem
  · exact hv
  · exact fieldsOrdered_iff.1 h e mem

end Value

namespace Json

theorem ordered_ofInt (z : Int) : (Value.ofInt z).Ordered := by
  have beyond : (Value.ofInt.beyond z).Ordered := by
    unfold Value.ofInt.beyond
    cases Double.ofInt? z <;> simp [Value.Ordered]
  unfold Value.ofInt
  split
  · split
    · simp [Value.Ordered]
    · exact beyond
  · split
    · simp [Value.Ordered]
    · exact beyond

mutual

theorem ordered_toValue : (j : Json) → j.toValue.Ordered
  | .null => by simp [toValue, Value.Ordered]
  | .bool _ => by simp [toValue, Value.Ordered]
  | .int z => by simpa [toValue] using ordered_ofInt z
  | .real _ => by simp [toValue, Value.Ordered]
  | .str _ => by simp [toValue, Value.Ordered]
  | .arr items => by simpa [toValue, Value.Ordered] using ordered_itemsToValue items
  | .obj members => by
    simpa [toValue, Value.Ordered] using
      ordered_membersToValue members [] List.Pairwise.nil (by simp [Value.FieldsOrdered])
  | .unreadable => by simp [toValue, Value.Ordered]

theorem ordered_itemsToValue : (items : List Json) → Value.ItemsOrdered (itemsToValue items)
  | [] => by simp [itemsToValue, Value.ItemsOrdered]
  | j :: rest => by
    simpa [itemsToValue, Value.ItemsOrdered] using ⟨ordered_toValue j, ordered_itemsToValue rest⟩

theorem ordered_membersToValue : (members : List (String × Json)) → (fields : Dict Value) →
    fields.Sorted → Value.FieldsOrdered fields →
    Dict.Sorted (membersToValue fields members) ∧ Value.FieldsOrdered (membersToValue fields members)
  | [], fields, sorted, ordered => by simpa [membersToValue] using ⟨sorted, ordered⟩
  | (k, j) :: rest, fields, sorted, ordered => by
    simpa [membersToValue] using
      ordered_membersToValue rest _ (sorted.insert k j.toValue) (ordered.insert k (ordered_toValue j))

end

end Json
end ChainIndex
