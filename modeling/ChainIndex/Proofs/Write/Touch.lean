import ChainIndex.Proofs.Write.Ordered
import ChainIndex.Proofs.Write.Repeat

/-!
What mutations do to a single field. Most put a value there, put one there where there is none, or add
items to an array; a run of such changes the field no more when it is taken again.
-/
namespace ChainIndex
namespace Value

mutual

theorem same_refl : (v : Value) → v.same v = true
  | .arr items => by simpa [same] using sameItems_refl items
  | .obj fields => by simpa [same] using sameFields_refl fields
  | .real x => by simp [same, Double.same]
  | .null | .bool _ | .nat _ | .neg _ | .str _ => by simp [same]

theorem sameItems_refl : (items : List Value) → sameItems items items = true
  | [] => rfl
  | v :: rest => by simp [sameItems, same_refl v, sameItems_refl rest]

theorem sameFields_refl : (fields : List (String × Value)) → sameFields fields fields = true
  | [] => rfl
  | (_, v) :: rest => by simp [sameFields, same_refl v, sameFields_refl rest]

end

mutual

theorem same_comm : (v w : Value) → v.same w = w.same v
  | .arr items, w => by
    cases w with
    | arr others => simpa [same] using sameItems_comm items others
    | _ => rfl
  | .obj fields, w => by
    cases w with
    | obj others => simpa [same] using sameFields_comm fields others
    | _ => rfl
  | .real x, w => by
    cases w with
    | real y => simp only [same, Double.same, BEq.comm (a := x), Bool.and_comm]
    | _ => rfl
  | .null, w | .bool _, w | .nat _, w | .neg _, w | .str _, w => by
    cases w <;> first | rfl | exact BEq.comm

theorem sameItems_comm : (items others : List Value) → sameItems items others = sameItems others items
  | [], [] => rfl
  | [], _ :: _ => rfl
  | _ :: _, [] => rfl
  | v :: rest, w :: more => by simp only [sameItems, same_comm v w, sameItems_comm rest more]

theorem sameFields_comm : (fields others : List (String × Value)) → sameFields fields others = sameFields others fields
  | [], [] => rfl
  | [], _ :: _ => rfl
  | _ :: _, [] => rfl
  | (k, v) :: rest, (l, w) :: more => by
    simp only [sameFields, same_comm v w, sameFields_comm rest more, BEq.comm (a := k)]

end

variable {v w : Value} {items values : List Value} {text : String}

theorem same_str_left : (str text).same w = true ↔ w = .str text := by
  rw [same_comm, same_str_iff]

theorem isAmong_append (more : List Value) : w.isAmong (items ++ more) = (w.isAmong items || w.isAmong more) :=
  List.any_append

theorem isAmong_of_mem (h : w ∈ items) : w.isAmong items = true :=
  List.any_eq_true.2 ⟨w, h, same_refl w⟩

def addItem (items : List Value) (w : Value) : List Value := if w.isAmong items then items else items ++ [w]

theorem addEach_eq (values : List Value) (v : Value) :
    addEach values v = .arr (values.foldl addItem (v.items?.getD [])) := rfl

theorem isAmong_addItem_self (items : List Value) (w : Value) : w.isAmong (addItem items w) = true := by
  unfold addItem
  split
  · next h => exact h
  · rw [isAmong_append, isAmong_of_mem (List.mem_singleton_self w), Bool.or_true]

theorem isAmong_addItem (h : w.isAmong items = true) (x : Value) : w.isAmong (addItem items x) = true := by
  unfold addItem
  split
  · exact h
  · rw [isAmong_append, h, Bool.true_or]

theorem isAmong_foldl_addItem_of_isAmong (h : w.isAmong items = true) (values : List Value) :
    w.isAmong (values.foldl addItem items) = true :=
  List.foldlRecOn (motive := fun items => w.isAmong items = true) values addItem h
    fun _ hi x _ => isAmong_addItem hi x

theorem isAmong_foldl_addItem (hw : w ∈ values) (items : List Value) :
    w.isAmong (values.foldl addItem items) = true :=
  Steps.foldl_of_settled (P := fun items => w.isAmong items = true) (fun x _ _ hi => isAmong_addItem hi x) hw
    (fun items => isAmong_addItem_self items w) items

theorem foldl_addItem_eq_self (h : ∀ w ∈ values, w.isAmong items = true) :
    values.foldl addItem items = items :=
  Steps.foldl_eq_self fun w hw => if_pos (h w hw)

/-- Values that are all among the items are not added. -/
theorem addEach_eq_self_iff :
    addEach values (.arr items) = .arr items ↔ ∀ w ∈ values, w.isAmong items = true := by
  rw [addEach_eq]
  constructor
  · intro same w hw
    have hitems : values.foldl addItem items = items := Value.arr.inj same
    rw [← hitems]
    exact isAmong_foldl_addItem hw items
  · intro h
    exact congrArg Value.arr (foldl_addItem_eq_self h)

theorem addEach_addEach (values : List Value) (v : Value) : addEach values (addEach values v) = addEach values v :=
  addEach_eq_self_iff.2 fun _ hw => isAmong_foldl_addItem hw _

/-- Adding more keeps what was added. -/
theorem addEach_of_added {others : List Value} (h : addEach values v = v) :
    addEach values (addEach others v) = addEach others v := by
  obtain ⟨items, rfl⟩ : ∃ items, v = .arr items := ⟨_, h.symm⟩
  exact addEach_eq_self_iff.2 fun w hw => isAmong_foldl_addItem_of_isAmong (addEach_eq_self_iff.1 h w hw) others

section Paths

variable {f : Value → Value} {key other : String}

theorem get?_writeAt_self (f : Value → Value) (key : String) (rest : List String) (v : Value) :
    (v.writeAt f (key :: rest)).get? key = some (((v.get? key).getD .null).writeAt f rest) := by
  rw [writeAt, get?_obj, Dict.find?_insert, if_pos rfl, get?_eq_find?]

theorem get?_writeAt_of_ne (f : Value → Value) (h : key ≠ other) (rest : List String) (v : Value) :
    (v.writeAt f (key :: rest)).get? other = v.get? other := by
  rw [writeAt, get?_obj, Dict.find?_insert, if_neg h, get?_eq_find? v]

/-- A change further down a path changes the first field of the path by what it holds. -/
theorem get?_adjustAt_self (f : Value → Value) (key : String) (rest : List String) (v : Value) :
    (v.adjustAt f (key :: rest)).get? key = (v.get? key).map (·.adjustAt f rest) := by
  cases v with
  | obj fields =>
    simp only [adjustAt]
    cases hf : Dict.find? fields key with
    | none => simp [hf]
    | some w => simp [hf, Dict.find?_insert]
  | _ => rfl

theorem get?_adjustAt_of_ne (f : Value → Value) (h : key ≠ other) (rest : List String) (v : Value) :
    (v.adjustAt f (key :: rest)).get? other = v.get? other := by
  cases v with
  | obj fields =>
    simp only [adjustAt]
    cases hf : Dict.find? fields key with
    | none => rfl
    | some w => simp [Dict.find?_insert, h]
  | _ => rfl

theorem get?_eraseAt_of_ne (h : key ≠ other) (rest : List String) (v : Value) :
    (v.eraseAt (key :: rest)).get? other = v.get? other := by
  unfold eraseAt
  cases rest with
  | nil => simp [adjustAt, get?_eraseKey, h]
  | cons next more =>
    simp only [List.getLast?_cons_cons, List.dropLast_cons_cons]
    cases (next :: more).getLast? with
    | none => rfl
    | some last => exact get?_adjustAt_of_ne _ h _ v

end Paths

end Value

/-- How a field may change: it is set, or taken away, whatever it was; or a value is put there if there
is none; or items are added to the array there. -/
inductive Touch where
  | sets (value : Option Value)
  | fills (value : Option Value)
  | adds (values : List Value)

namespace Touch

def apply : Touch → Option Value → Option Value
  | sets value, _ => value
  | fills value, old => old.or value
  | adds values, old => some (Value.addEach values (old.getD .null))

/-- The touch leaves every field as it is. -/
theorem fills_none (old : Option Value) : (fills none).apply old = old := Option.or_none

theorem apply_apply (t : Touch) (old : Option Value) : t.apply (t.apply old) = t.apply old := by
  cases t with
  | sets value => rfl
  | fills value => cases old <;> cases value <;> rfl
  | adds values => exact congrArg some (Value.addEach_addEach values _)

/-- What is left as it is stays so, as long as nothing is put in its place. -/
theorem apply_of_kept {t u : Touch} (ht : ∀ value, t ≠ sets value) (hu : ∀ value, u ≠ sets value)
    {old : Option Value} (h : t.apply old = old) : t.apply (u.apply old) = u.apply old := by
  cases u with
  | sets value => exact absurd rfl (hu value)
  | fills value =>
    cases old with
    | some v => exact h
    | none =>
      cases t with
      | sets other => exact absurd rfl (ht other)
      | fills other =>
        have hother : other = none := h
        rw [hother, fills_none]
      | adds others => cases h
  | adds values =>
    cases t with
    | sets other => exact absurd rfl (ht other)
    | fills other => rfl
    | adds others =>
      cases old with
      | none => cases h
      | some v => exact congrArg some (Value.addEach_of_added (Option.some.inj h))

/-- Touches of a field, taken again, leave it as they did. -/
theorem foldl_twice (ts : List Touch) (old : Option Value) :
    ts.foldl (fun old t => t.apply old) (ts.foldl (fun old t => t.apply old) old) =
      ts.foldl (fun old t => t.apply old) old := by
  by_cases hsets : ∃ value, sets value ∈ ts
  · obtain ⟨value, hmem⟩ := hsets
    exact Steps.foldl_eq_foldl_of_constant hmem (fun _ _ => rfl) _ _
  · refine Steps.foldl_foldl_of_kept (fun t _ => t.apply_apply) (fun t ht u hu s h => ?_) old
    exact apply_of_kept (fun value hs => hsets ⟨value, hs ▸ ht⟩) (fun value hs => hsets ⟨value, hs ▸ hu⟩) h

end Touch

namespace Mutation

variable {m : Mutation} {ms : List Mutation} {key : String}

def Touches (m : Mutation) (key : String) (t : Touch) : Prop := ∀ doc, (m.apply doc).get? key = t.apply (doc.get? key)

def Avoids (m : Mutation) (key : String) : Prop := ∀ doc, (m.apply doc).get? key = doc.get? key

theorem Avoids.touches (h : m.Avoids key) : m.Touches key (.fills none) :=
  fun doc => (h doc).trans (Touch.fills_none _).symm

theorem get?_applyAll_of_avoids (h : ∀ m ∈ ms, m.Avoids key) (doc : Value) :
    (applyAll ms doc).get? key = doc.get? key :=
  List.foldlRecOn (motive := fun d => d.get? key = doc.get? key) ms (fun d m => m.apply d) rfl
    fun d hd m hm => (h m hm d).trans hd

/-- Mutations that each touch a field in one of the three ways touch it in that order. -/
theorem exists_touches (h : ∀ m ∈ ms, ∃ t, m.Touches key t) :
    ∃ ts : List Touch, ∀ doc, (applyAll ms doc).get? key = ts.foldl (fun old t => t.apply old) (doc.get? key) := by
  induction ms with
  | nil => exact ⟨[], fun _ => rfl⟩
  | cons m rest ih =>
    obtain ⟨⟨t, ht⟩, hrest⟩ := List.forall_mem_cons.1 h
    obtain ⟨ts, hts⟩ := ih hrest
    refine ⟨t :: ts, fun doc => ?_⟩
    rw [List.foldl_cons, ← ht doc]
    exact hts (m.apply doc)

/-- Mutations of which each touches the field in one of the three ways. -/
theorem get?_applyAll_twice (h : ∀ m ∈ ms, ∃ t, m.Touches key t) (doc : Value) :
    (applyAll ms (applyAll ms doc)).get? key = (applyAll ms doc).get? key := by
  obtain ⟨ts, hts⟩ := exists_touches h
  rw [hts, hts, Touch.foldl_twice]

theorem touches_merge {patch : Value} (hp : patch.IsFlat) (key : String) : ∃ t, (merge patch).Touches key t := by
  cases hk : patch.get? key with
  | none => exact ⟨.fills none, fun doc => by simp [apply, Value.get?_merge hp, hk, Touch.apply]⟩
  | some value => exact ⟨.sets (some value), fun doc => by simp [apply, Value.get?_merge hp, hk, Touch.apply]⟩

theorem touches_mergeIfAbsent (patch : Value) (key : String) :
    (mergeIfAbsent patch).Touches key (.fills (patch.get? key)) :=
  fun doc => Value.get?_mergeAbsent patch doc key

section Paths

variable {field first : String} {rest : List String}

theorem avoids_set (hf : Path.keys field = first :: rest) (hk : first ≠ key) (value : Value) :
    (set field value).Avoids key := fun doc => by
  rw [apply, hf, Value.get?_writeAt_of_ne _ hk]

theorem avoids_unset (hf : Path.keys field = first :: rest) (hk : first ≠ key) : (unset field).Avoids key :=
  fun doc => by rw [apply, hf, Value.get?_eraseAt_of_ne hk]

theorem avoids_addToSet (hf : Path.keys field = first :: rest) (hk : first ≠ key) (values : List Value) :
    (addToSet field values).Avoids key := fun doc => by
  rw [apply, hf, Value.get?_writeAt_of_ne _ hk]

theorem avoids_removeWhere (hf : Path.keys field = first :: rest) (hk : first ≠ key) (name : String)
    (values : List Value) : (removeWhere field name values).Avoids key := fun doc => by
  rw [apply, hf, Value.get?_adjustAt_of_ne _ hk]

theorem touches_addToSet (hf : Path.keys field = [field]) (values : List Value) :
    (addToSet field values).Touches field (.adds values) := fun doc => by
  rw [apply, hf, Value.get?_writeAt_self]
  rfl

/-- A field of one key, to which items are added. -/
theorem exists_touches_addToSet (hf : Path.keys field = [field]) (values : List Value) (key : String) :
    ∃ t, (addToSet field values).Touches key t := by
  by_cases hk : field = key
  · exact hk ▸ ⟨_, touches_addToSet hf values⟩
  · exact ⟨_, (avoids_addToSet hf hk values).touches⟩

end Paths

section Records

variable {fields : List (String × Value)}

theorem avoids_merge (hf : ∀ e ∈ fields, e.2.fields? = none) (hk : key ∉ Dict.keys fields) :
    (merge (.record fields)).Avoids key := fun doc => by
  rw [apply, Value.get?_merge (Value.isFlat_record hf), Value.get?_record,
    Dict.find?_reverse_eq_none (List.Subset.refl _) hk, Option.none_or]

theorem avoids_mergeIfAbsent (hk : key ∉ Dict.keys fields) : (mergeIfAbsent (.record fields)).Avoids key :=
  fun doc => by
    rw [apply, Value.get?_mergeAbsent, Value.get?_record,
      Dict.find?_reverse_eq_none (List.Subset.refl _) hk, Option.or_none]

/-- A patch of one field goes into what the field has. -/
theorem get?_merge_singleton (name : String) (value doc : Value) (key : String) :
    ((merge (.record [(name, value)])).apply doc).get? key =
      if name = key then some (value.overlay (doc.get? name)) else doc.get? key := by
  have hsorted : Dict.Sorted [(name, value)] := List.pairwise_singleton _ _
  refine (Value.get?_obj_merge hsorted doc key).trans ?_
  split
  · next hk => rw [hk, Dict.find?_cons_self]; rfl
  · next hk => rw [Dict.find?_cons_of_ne hk]; rfl

theorem avoids_merge_singleton {name : String} (h : name ≠ key) (value : Value) :
    (merge (.record [(name, value)])).Avoids key := fun doc => by
  rw [get?_merge_singleton, if_neg h]

end Records

/-- The mutations, made again, change nothing more. -/
def Settle (ms : List Mutation) : Prop :=
  ∀ doc : Value, doc.IsDocument → applyAll ms (applyAll ms doc) = applyAll ms doc

/-- The mutation writes values in order, and touches every field in one of the three ways. -/
structure Simple (m : Mutation) : Prop where
  ordered : m.Ordered
  touches : ∀ key, ∃ t, m.Touches key t

theorem settle_of_simple (h : ∀ m ∈ ms, m.Simple) : Settle ms :=
  fun doc hd => applyAll_twice (fun m hm => (h m hm).ordered) hd fun key =>
    get?_applyAll_twice (fun m hm => (h m hm).touches key) doc

theorem simple_merge {fields : List (String × Value)} (hf : ∀ e ∈ fields, e.2.fields? = none)
    (ho : ∀ e ∈ fields, e.2.Ordered) : (merge (.record fields)).Simple :=
  ⟨Value.isDocument_record ho, touches_merge (Value.isFlat_record hf)⟩

theorem simple_mergeIfAbsent {fields : List (String × Value)} (ho : ∀ e ∈ fields, e.2.Ordered) :
    (mergeIfAbsent (.record fields)).Simple :=
  ⟨(Value.isDocument_record ho).ordered, fun key => ⟨_, touches_mergeIfAbsent _ key⟩⟩

theorem simple_addToSet {field : String} (hf : Path.keys field = [field]) {values : List Value}
    (ho : ∀ v ∈ values, v.Ordered) : (addToSet field values).Simple :=
  ⟨ho, exists_touches_addToSet hf values⟩

end Mutation

namespace WriteAction

def Settles : WriteAction → Prop
  | upsert ms => Mutation.Settle ms
  | update ms => Mutation.Settle ms
  | _ => True

variable {action : WriteAction} {stored : Option Value}

theorem Settles.apply_apply (ha : action.Settles) (h : ∀ doc, stored = some doc → doc.IsDocument) :
    action.apply (action.apply stored) = action.apply stored := by
  cases action with
  | upsert ms => exact congrArg some (ha _ (Value.isDocument_getD h))
  | update ms =>
    cases stored with
    | none => rfl
    | some old => exact congrArg some (ha old (h old rfl))
  | _ => rfl

end WriteAction
end ChainIndex
