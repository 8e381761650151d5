import ChainIndex.Proofs.Fields
import ChainIndex.Proofs.Write.Paths
import ChainIndex.Write.Query

/-!
What queries mean. A path leads from object to object by its keys; the value at its end is compared as a JSON value,
in which only the sign of zero does not count.
-/
namespace ChainIndex

def Path.IsJoined (keys : List String) (path : String) : Prop :=
  keys ≠ [] ∧ (∀ key ∈ keys, '.' ∉ key.toList) ∧ path.toList = List.intercalate ['.'] (keys.map String.toList)

namespace Value

inductive Leads : Value → List String → Value → Prop
  | here {v : Value} : Leads v [] v
  | key {fields : Dict Value} {key : String} {keys : List String} {v w : Value} :
      fields.find? key = some v → Leads v keys w → Leads (.obj fields) (key :: keys) w

def HoldsAt (doc : Value) (path : String) (w : Value) : Prop := ∃ keys, Path.IsJoined keys path ∧ Leads doc keys w

mutual

/-- The value with every zero without its sign. -/
def unsigned : Value → Value
  | .real x => .real (if x.isZero then .zero else x)
  | .arr items => .arr (unsignedItems items)
  | .obj fields => .obj (unsignedFields fields)
  | v => v

def unsignedItems : List Value → List Value
  | [] => []
  | v :: rest => unsigned v :: unsignedItems rest

def unsignedFields : List (String × Value) → List (String × Value)
  | [] => []
  | (k, v) :: rest => (k, unsigned v) :: unsignedFields rest

end

def IsSame (v w : Value) : Prop := v.unsigned = w.unsigned

end Value

namespace Query

/-- A document matches by the structure of the query. -/
inductive Matches : Query → Value → Prop
  | matchAll {doc : Value} : Matches .matchAll doc
  | term {doc w value : Value} {field : String} : doc.HoldsAt field w → w.IsSame value → Matches (.term field value) doc
  | terms {doc w value : Value} {field : String} {values : List Value} :
      doc.HoldsAt field w → value ∈ values → w.IsSame value → Matches (.terms field values) doc
  | present {doc w : Value} {field : String} : doc.HoldsAt field w → w ≠ .null → Matches (.present field) doc
  | all {doc : Value} {queries : List Query} : (∀ q ∈ queries, Matches q doc) → Matches (.all queries) doc

end Query

/-- A path has its keys and no others. -/
theorem Path.isJoined_iff {keys : List String} {path : String} : IsJoined keys path ↔ keys = Path.keys path := by
  constructor
  · rintro ⟨hne, hkeys, hpath⟩
    have hparts : ∀ part ∈ keys.map String.toList, '.' ∉ part := List.forall_mem_map.2 hkeys
    rw [Path.keys, hpath, Text.splitAll_intercalate (mt List.map_eq_nil_iff.1 hne) hparts, List.map_map]
    exact (List.map_id'' (fun _ => String.ofList_toList) keys).symm
  · rintro rfl
    have hlists : (Path.keys path).map String.toList = Text.splitAll '.' path.toList := by
      rw [Path.keys, List.map_map]
      exact List.map_id'' (fun _ => String.toList_ofList) _
    refine ⟨keys_ne_nil path, fun key hk => ?_, ?_⟩
    · exact Text.sep_not_mem_splitAll _ _ (hlists ▸ List.mem_map_of_mem hk)
    · rw [hlists, Text.intercalate_splitAll]

namespace Value

theorem at?_eq_some_iff {keys : List String} {doc w : Value} : doc.at? keys = some w ↔ doc.Leads keys w := by
  induction keys generalizing doc with
  | nil => exact ⟨fun h => Option.some.inj h ▸ .here, fun h => by cases h; rfl⟩
  | cons key rest ih =>
    rw [at?, Option.bind_eq_some_iff]
    constructor
    · rintro ⟨v, hv, hw⟩
      cases doc with
      | obj fields => exact .key hv (ih.1 hw)
      | _ => cases hv
    · intro h
      cases h with
      | key hv hw => exact ⟨_, hv, ih.2 hw⟩

theorem lookup?_eq_some_iff {doc w : Value} {path : String} : doc.lookup? path = some w ↔ doc.HoldsAt path w := by
  simp only [lookup?, at?_eq_some_iff, HoldsAt, Path.isJoined_iff, exists_eq_left]

theorem any_lookup?_iff {doc : Value} {path : String} {p : Value → Bool} :
    (doc.lookup? path).any p = true ↔ ∃ w, doc.HoldsAt path w ∧ p w = true := by
  simp only [Option.any_eq_true, lookup?_eq_some_iff]

end Value

/-- Zero without its sign. -/
theorem Double.same_iff {x y : Double} :
    x.same y = true ↔ (if x.isZero then zero else x) = if y.isZero then zero else y := by
  have hzero : zero.isZero = true := by decide
  rw [same, Bool.or_eq_true, beq_iff_eq, Bool.and_eq_true]
  by_cases hx : x.isZero = true <;> by_cases hy : y.isZero = true
  · simp [hx, hy]
  · have hne : x ≠ y ∧ zero ≠ y := ⟨fun h => hy (h ▸ hx), fun h => hy (h ▸ hzero)⟩
    simp [hx, hy, hne]
  · have hne : x ≠ y ∧ x ≠ zero := ⟨fun h => hx (h ▸ hy), fun h => hx (h ▸ hzero)⟩
    simp [hx, hy, hne]
  · simp [hx, hy]

namespace Value

mutual

theorem same_iff : (v w : Value) → (v.same w = true ↔ v.IsSame w)
  | .arr items, w => by
    cases w with
    | arr others => simpa [same, IsSame, unsigned] using sameItems_iff items others
    | _ => simp [same, IsSame, unsigned]
  | .obj fields, w => by
    cases w with
    | obj others => simpa [same, IsSame, unsigned] using sameFields_iff fields others
    | _ => simp [same, IsSame, unsigned]
  | .real x, w => by
    cases w with
    | real y => simpa [same, IsSame, unsigned] using Double.same_iff
    | _ => simp [same, IsSame, unsigned]
  | .null, w | .bool _, w | .nat _, w | .neg _, w | .str _, w => by
    cases w <;> simp [same, IsSame, unsigned]

theorem sameItems_iff : (items others : List Value) →
    (sameItems items others = true ↔ unsignedItems items = unsignedItems others)
  | [], [] => by simp [sameItems]
  | [], _ :: _ => by simp [sameItems, unsignedItems]
  | _ :: _, [] => by simp [sameItems, unsignedItems]
  | v :: rest, w :: more => by
    rw [sameItems, Bool.and_eq_true, same_iff v w, sameItems_iff rest more, unsignedItems, unsignedItems,
      List.cons.injEq, IsSame]

theorem sameFields_iff : (fields others : List (String × Value)) →
    (sameFields fields others = true ↔ unsignedFields fields = unsignedFields others)
  | [], [] => by simp [sameFields]
  | [], _ :: _ => by simp [sameFields, unsignedFields]
  | _ :: _, [] => by simp [sameFields, unsignedFields]
  | (k, v) :: rest, (l, w) :: more => by
    rw [sameFields, Bool.and_eq_true, Bool.and_eq_true, beq_iff_eq, same_iff v w, sameFields_iff rest more,
      unsignedFields, unsignedFields, List.cons.injEq, Prod.mk.injEq, IsSame]

end

theorem isAmong_iff {w : Value} {values : List Value} : w.isAmong values = true ↔ ∃ v ∈ values, w.IsSame v := by
  simp only [isAmong, List.any_eq_true, same_iff]

end Value

namespace Query

mutual

/-- The documents that a query selects are those that match it. -/
theorem selects_iff : (query : Query) → (doc : Value) → (query.selects doc = true ↔ query.Matches doc)
  | .matchAll, _ => ⟨fun _ => .matchAll, fun _ => by rw [selects]⟩
  | .term field value, doc => by
    rw [selects, Value.any_lookup?_iff]
    constructor
    · rintro ⟨w, hw, hs⟩
      exact .term hw ((Value.same_iff w value).1 hs)
    · intro h
      cases h with
      | term hw hs => exact ⟨_, hw, (Value.same_iff _ value).2 hs⟩
  | .terms field values, doc => by
    rw [selects, Value.any_lookup?_iff]
    constructor
    · rintro ⟨w, hw, hs⟩
      obtain ⟨v, hv, hs⟩ := Value.isAmong_iff.1 hs
      exact .terms hw hv hs
    · intro h
      cases h with
      | terms hw hv hs => exact ⟨_, hw, Value.isAmong_iff.2 ⟨_, hv, hs⟩⟩
  | .present field, doc => by
    have hnull (w : Value) : (!w.isNull) = true ↔ w ≠ .null := by cases w <;> simp [Value.isNull]
    rw [selects, Value.any_lookup?_iff]
    constructor
    · rintro ⟨w, hw, hn⟩
      exact .present hw ((hnull w).1 hn)
    · intro h
      cases h with
      | present hw hn => exact ⟨_, hw, (hnull _).2 hn⟩
  | .all queries, doc => by
    rw [selects, allSelect_iff queries doc]
    constructor
    · exact .all
    · intro h
      cases h with
      | all hq => exact hq

theorem allSelect_iff : (queries : List Query) → (doc : Value) →
    (allSelect queries doc = true ↔ ∀ q ∈ queries, q.Matches doc)
  | [], _ => by simp [allSelect]
  | q :: rest, doc => by
    rw [allSelect, Bool.and_eq_true, selects_iff q doc, allSelect_iff rest doc, List.forall_mem_cons]

end

/-- A block is known by two fields of what it wrote. -/
theorem selects_writtenByBlock_iff {timestamp : UInt64} {shard : UInt32} {doc : Value} :
    (writtenByBlock timestamp shard).selects doc = true ↔
      doc.get? "timestamp" = some (.nat timestamp) ∧ doc.get? "shardID" = some (.nat shard.toUInt64) := by
  have htimestamp : Path.keys "timestamp" = ["timestamp"] := rfl
  have hshard : Path.keys "shardID" = ["shardID"] := rfl
  have hsame (v : Value) (n : UInt64) : v.same (.nat n) = true ↔ v = .nat n := by
    cases v <;> simp [Value.same]
  simp only [writtenByBlock, selects, allSelect, Value.lookup?_of_keys htimestamp, Value.lookup?_of_keys hshard,
    Bool.and_true, Bool.and_eq_true, Option.any_eq_true, hsame, exists_eq_right]

end Query
end ChainIndex
