import ChainIndex.Document.Merge
import ChainIndex.Document.Order
import ChainIndex.Document.Path
import ChainIndex.Proofs.Dictionary

/-!
Documents as records: what each way of writing a document does to its top-level fields. Two records
with the same fields are the same document.
-/
namespace ChainIndex
namespace Value

def IsRecord (v : Value) : Prop := ∃ fields : Dict Value, v = .obj fields ∧ fields.Sorted

/-- A record none of whose fields is an object, so that merging it replaces whole fields. -/
structure IsFlat (v : Value) : Prop where
  record : v.IsRecord
  plain : ∀ key w, v.get? key = some w → w.fields? = none

theorem get?_eq_find? (v : Value) (key : String) : v.get? key = v.fieldsOrEmpty.find? key := by
  cases v <;> rfl

@[simp] theorem get?_obj (fields : Dict Value) (key : String) :
    (Value.obj fields).get? key = fields.find? key := rfl

/-- A path of one key leads to a field. -/
theorem lookup?_of_keys {path key : String} (hk : Path.keys path = [key]) (v : Value) :
    v.lookup? path = v.get? key := by
  rw [lookup?, hk, at?]
  cases v.get? key <;> rfl

/-- A text equals itself alone. -/
theorem same_str_iff {v : Value} {text : String} : v.same (.str text) = true ↔ v = .str text := by
  cases v <;> simp [same]

@[simp] theorem get?_empty (key : String) : empty.get? key = none := rfl

theorem IsRecord.sorted {v : Value} (h : v.IsRecord) : v.fieldsOrEmpty.Sorted := by
  obtain ⟨fields, rfl, hs⟩ := h
  exact hs

theorem isRecord_empty : empty.IsRecord := ⟨[], rfl, List.Pairwise.nil⟩

theorem isRecord_record (fields : List (String × Value)) : (Value.record fields).IsRecord :=
  ⟨_, rfl, Dict.sorted_ofList fields⟩

/-- Records are told apart by their fields alone. -/
theorem IsRecord.ext {v w : Value} (hv : v.IsRecord) (hw : w.IsRecord)
    (h : ∀ key, v.get? key = w.get? key) : v = w := by
  obtain ⟨fields, rfl, hf⟩ := hv
  obtain ⟨others, rfl, ho⟩ := hw
  exact congrArg Value.obj (hf.ext ho h)

theorem get?_record (fields : List (String × Value)) (key : String) :
    (Value.record fields).get? key = Dict.find? fields.reverse key :=
  Dict.find?_ofList fields key

@[simp] theorem get?_record_singleton (name : String) (value : Value) (key : String) :
    (Value.record [(name, value)]).get? key = if name = key then some value else none :=
  get?_record [(name, value)] key

theorem isFlat_record {fields : List (String × Value)} (h : ∀ e ∈ fields, e.2.fields? = none) :
    (Value.record fields).IsFlat := by
  refine ⟨isRecord_record fields, fun key w hw => ?_⟩
  rw [get?_record] at hw
  exact h (key, w) (List.mem_reverse.1 (Dict.mem_of_find? hw))

theorem isFlat_record_singleton (name : String) (value : Value) (h : value.fields? = none) :
    (Value.record [(name, value)]).IsFlat :=
  isFlat_record (List.forall_mem_singleton.2 h)

theorem get?_set (v : Value) (key other : String) (value : Value) :
    (v.set key value).get? other = if key = other then some value else v.get? other := by
  rw [get?_eq_find? v]
  exact Dict.find?_insert _ key other value

theorem set_set (v : Value) (key : String) (first second : Value) :
    (v.set key first).set key second = v.set key second :=
  congrArg Value.obj (Dict.insert_insert _ key first second)

theorem set_comm {key other : String} (h : key ≠ other) (v first second : Value) :
    (v.set key first).set other second = (v.set other second).set key first :=
  congrArg Value.obj (Dict.insert_comm h _ first second)

theorem IsRecord.set {v : Value} (h : v.IsRecord) (key : String) (value : Value) :
    (v.set key value).IsRecord :=
  ⟨_, rfl, h.sorted.insert key value⟩

/-- The document without one of its fields. -/
theorem get?_eraseFields (v : Value) (key other : String) :
    (Value.obj (Dict.erase v.fieldsOrEmpty key)).get? other =
      if key = other then none else v.get? other := by
  rw [get?_eq_find? v]
  exact Dict.find?_erase _ key other

theorem IsRecord.eraseFields {v : Value} (h : v.IsRecord) (key : String) :
    (Value.obj (Dict.erase v.fieldsOrEmpty key)).IsRecord :=
  ⟨_, rfl, h.sorted.erase key⟩

theorem get?_eraseKey (v : Value) (key other : String) :
    (v.eraseKey key).get? other = if key = other then none else v.get? other := by
  cases v with
  | obj fields => exact Dict.find?_erase fields key other
  | _ => simp [eraseKey, get?, fields?]

theorem IsRecord.eraseKey {v : Value} (h : v.IsRecord) (key : String) : (v.eraseKey key).IsRecord := by
  obtain ⟨fields, rfl, hs⟩ := h
  exact ⟨_, rfl, hs.erase key⟩

theorem eraseKey_eraseKey (v : Value) (key : String) : (v.eraseKey key).eraseKey key = v.eraseKey key := by
  cases v with
  | obj fields => simp [eraseKey, Dict.erase]
  | _ => rfl

mutual

/-- Induction into the fields of objects. -/
theorem induction_fields {motive : Value → Prop} (plain : ∀ v : Value, v.fields? = none → motive v)
    (obj : ∀ fields : Dict Value, (∀ e ∈ fields, motive e.2) → motive (.obj fields)) : (v : Value) → motive v
  | .obj fields => obj fields (induction_entries plain obj fields)
  | .null => plain _ rfl
  | .bool _ => plain _ rfl
  | .nat _ => plain _ rfl
  | .neg _ => plain _ rfl
  | .real _ => plain _ rfl
  | .str _ => plain _ rfl
  | .arr _ => plain _ rfl

/-- Induction over documents that goes from the entries of an object to the object, whatever arrays hold. -/
theorem induction_entries {motive : Value → Prop} (plain : ∀ v : Value, v.fields? = none → motive v)
    (obj : ∀ fields : Dict Value, (∀ e ∈ fields, motive e.2) → motive (.obj fields)) :
    (fields : List (String × Value)) → ∀ e ∈ fields, motive e.2
  | [] => nofun
  | (_, v) :: rest => List.forall_mem_cons.2 ⟨induction_fields plain obj v, induction_entries plain obj rest⟩

end

section Merge

variable {patch target w : Value} {news fields : Dict Value}

def overlay (patch : Value) (old : Option Value) : Value := (old.map patch.merge).getD patch

@[simp] theorem overlay_none (patch : Value) : patch.overlay none = patch := rfl

@[simp] theorem overlay_some (patch old : Value) : patch.overlay (some old) = patch.merge old := rfl

def mergeEntry (fields : Dict Value) (e : String × Value) : Dict Value := Dict.alter fields e.1 e.2.overlay

theorem mergeFields_eq_foldl (news : List (String × Value)) (fields : Dict Value) :
    mergeFields news fields = news.foldl mergeEntry fields := by
  induction news generalizing fields with
  | nil => rw [mergeFields, List.foldl_nil]
  | cons e rest ih =>
    obtain ⟨key, patch⟩ := e
    rw [mergeFields, ih, List.foldl_cons, mergeEntry, Dict.alter, overlay]
    cases Dict.find? fields key <;> rfl

/-- Each entry of a patch goes over the field of its key. -/
theorem find?_mergeFields (hs : news.Sorted) (fields : Dict Value) (key : String) :
    Dict.find? (mergeFields news fields) key =
      ((news.find? key).map (·.overlay (fields.find? key))).or (fields.find? key) := by
  rw [mergeFields_eq_foldl]
  induction news generalizing fields with
  | nil => rfl
  | cons e rest ih =>
    obtain ⟨name, patch⟩ := e
    rw [List.foldl_cons, ih hs.tail, mergeEntry, Dict.find?_alter]
    by_cases hk : name = key
    · subst hk
      rw [hs.tail_find?, if_pos rfl, Dict.find?_cons_self]
      rfl
    · rw [if_neg hk, Dict.find?_cons_of_ne hk]

theorem merge_of_plain (h : patch.fields? = none) (target : Value) : patch.merge target = patch := by
  cases patch with
  | obj fields => cases h
  | _ => simp [merge]

theorem merge_onto_plain (h : target.fields? = none) (patch : Value) : patch.merge target = patch := by
  cases target with
  | obj fields => cases h
  | _ => cases patch <;> simp [merge]

theorem overlay_of_plain (h : w.fields? = none) (old : Option Value) : w.overlay old = w := by
  cases old with
  | none => rfl
  | some v => exact merge_of_plain h v

/-- A merged field is that of the patch, merged into the stored one where both are objects. -/
theorem get?_obj_merge (hs : news.Sorted) (target : Value) (key : String) :
    ((Value.obj news).merge target).get? key =
      ((news.find? key).map (·.overlay (target.get? key))).or (target.get? key) := by
  cases target with
  | obj fields =>
    rw [merge]
    exact find?_mergeFields hs fields key
  | _ =>
    rw [merge_onto_plain rfl, get?_obj]
    cases news.find? key <;> rfl

theorem get?_merge (h : patch.IsFlat) (target : Value) (key : String) :
    (patch.merge target).get? key = (patch.get? key).or (target.get? key) := by
  obtain ⟨news, rfl, hs⟩ := h.record
  rw [get?_obj_merge hs]
  cases hw : news.find? key with
  | none => rw [get?_obj, hw]; rfl
  | some w => rw [get?_obj, hw, Option.map_some, overlay_of_plain (h.plain key w hw)]

theorem IsRecord.merge (hp : patch.IsRecord) (h : target.IsRecord) : (patch.merge target).IsRecord := by
  obtain ⟨news, rfl, -⟩ := hp
  obtain ⟨fields, rfl, hs⟩ := h
  rw [Value.merge, mergeFields_eq_foldl]
  exact ⟨_, rfl, List.foldlRecOn news mergeEntry hs fun _ hf e _ => hf.alter e.1 _⟩

end Merge

def mergeAll (patches : List Value) (target : Value) : Value :=
  patches.foldl (fun target patch => patch.merge target) target

/-- The last patch that has the field gives it. -/
theorem get?_mergeAll {patches : List Value} (h : ∀ patch ∈ patches, patch.IsFlat) (target : Value)
    (key : String) :
    (mergeAll patches target).get? key = (patches.reverse.findSome? (·.get? key)).or (target.get? key) := by
  induction patches generalizing target with
  | nil => rfl
  | cons patch rest ih =>
    obtain ⟨hpatch, hrest⟩ := List.forall_mem_cons.1 h
    refine (ih hrest (patch.merge target)).trans ?_
    rw [get?_merge hpatch, List.reverse_cons, List.findSome?_append, Option.or_assoc]
    cases hp : patch.get? key <;> simp [hp]

theorem IsRecord.mergeAll {patches : List Value} {target : Value} (hp : ∀ patch ∈ patches, patch.IsFlat)
    (h : target.IsRecord) : (mergeAll patches target).IsRecord :=
  List.foldlRecOn _ _ h fun _ ht patch hm => (hp patch hm).record.merge ht

/-- A field that the patches have may go missing in between. -/
theorem mergeAll_eraseKey_mergeAll {patches : List Value} {target : Value} {key : String}
    (hp : ∀ patch ∈ patches, patch.IsFlat) (hk : ∃ patch ∈ patches, (patch.get? key).isSome = true)
    (h : target.IsRecord) :
    Value.mergeAll patches ((Value.mergeAll patches target).eraseKey key) =
      Value.mergeAll patches target := by
  have hmerged := h.mergeAll hp
  refine ((hmerged.eraseKey key).mergeAll hp).ext hmerged fun other => ?_
  rw [get?_mergeAll hp, get?_eraseKey, get?_mergeAll hp]
  have hfound : (patches.reverse.findSome? (·.get? key)).isSome = true := by
    obtain ⟨patch, hm, hs⟩ := hk
    exact List.findSome?_isSome_iff.2 ⟨patch, List.mem_reverse.2 hm, hs⟩
  by_cases he : key = other
  · subst he
    obtain ⟨value, hv⟩ := Option.isSome_iff_exists.1 hfound
    simp [hv]
  · cases patches.reverse.findSome? (·.get? other) <;> simp [he]

theorem find?_foldl_insertIfAbsent (news fields : Dict Value) (key : String) :
    Dict.find? (news.foldl (fun d e => Dict.insertIfAbsent d e.1 e.2) fields) key =
      (fields.find? key).or (news.find? key) := by
  induction news generalizing fields with
  | nil => simp
  | cons entry rest ih =>
    obtain ⟨k, w⟩ := entry
    rw [List.foldl_cons, ih, Dict.find?_insertIfAbsent, Option.or_assoc]
    by_cases hk : k = key <;> simp [Dict.find?, hk]

theorem get?_mergeAbsent (patch target : Value) (key : String) :
    (patch.mergeAbsent target).get? key = (target.get? key).or (patch.get? key) := by
  rw [get?_eq_find? patch, get?_eq_find? target]
  exact find?_foldl_insertIfAbsent patch.fieldsOrEmpty target.fieldsOrEmpty key

theorem IsRecord.mergeAbsent {target : Value} (h : target.IsRecord) (patch : Value) :
    (patch.mergeAbsent target).IsRecord := by
  refine ⟨_, rfl, ?_⟩
  generalize patch.fieldsOrEmpty = news
  have hs := h.sorted
  generalize target.fieldsOrEmpty = fields at hs
  induction news generalizing fields with
  | nil => exact hs
  | cons entry rest ih => exact ih _ (hs.insertIfAbsent entry.1 entry.2)

end Value

namespace Json

theorem membersToValue_eq_extend (members : List (String × Json)) (fields : Dict Value) :
    membersToValue fields members = fields.extend (members.map fun e => (e.1, e.2.toValue)) := by
  induction members generalizing fields with
  | nil => simp [membersToValue, Dict.extend]
  | cons entry rest ih =>
    obtain ⟨key, j⟩ := entry
    simpa [membersToValue, Dict.extend] using ih (fields.insert key j.toValue)

theorem get?_toValue_obj (members : List (String × Json)) (key : String) :
    (Json.obj members).toValue.get? key = (Dict.find? members.reverse key).map toValue := by
  rw [toValue, membersToValue_eq_extend, Value.get?_obj, Dict.find?_extend, ← List.map_reverse,
    Dict.find?_map members.reverse fun _ j => toValue j]
  simp

def IsPlain : Json → Prop
  | .obj _ => False
  | _ => True

theorem plain_ofInt (z : Int) : (Value.ofInt z).fields? = none := by
  have beyond : (Value.ofInt.beyond z).fields? = none := by
    unfold Value.ofInt.beyond
    cases Double.ofInt? z <;> rfl
  unfold Value.ofInt
  split <;> split <;> first | rfl | exact beyond

theorem IsPlain.toValue {j : Json} (h : j.IsPlain) : j.toValue.fields? = none := by
  cases j with
  | obj members => exact h.elim
  | int z => simpa [Json.toValue] using plain_ofInt z
  | _ => simp [Json.toValue, Value.fields?]

theorem isFlat_toValue_obj {members : List (String × Json)} (h : ∀ e ∈ members, e.2.IsPlain) :
    (Json.obj members).toValue.IsFlat := by
  refine ⟨?_, fun key w hw => ?_⟩
  · rw [Json.toValue]
    exact ⟨_, rfl, (ordered_membersToValue members [] List.Pairwise.nil trivial).1⟩
  · rw [get?_toValue_obj] at hw
    obtain ⟨j, hj, rfl⟩ := Option.map_eq_some_iff.1 hw
    exact (h _ (List.mem_reverse.1 (Dict.mem_of_find? hj))).toValue

end Json
end ChainIndex
