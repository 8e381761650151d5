import ChainIndex.Accumulator.Nft
import ChainIndex.Proofs.Correlation.Record
import ChainIndex.Proofs.Write.Nested

/-!
The changes of non-fungible tokens. All that is not about the token as a whole is below its field `data`,
so whatever a block says of the token, it changes nothing more when it is said again.
-/
namespace ChainIndex

section Metadata

theorem NftMetadata.isFlat_toValue (m : NftMetadata) : m.toJson.toValue.IsFlat := by
  refine Json.isFlat_toValue_obj fun e he => ?_
  simp only [List.mem_append] at he
  rcases he with ((((((he | he) | he) | he) | he) | he) | he) | he
  · exact Json.isPlain_textField e he
  · exact Json.isPlain_textField e he
  · split at he
    · cases he
    · exact List.mem_singleton.1 he ▸ trivial
  · exact Json.isPlain_textField e he
  · exact Json.isPlain_textsField e he
  · exact Json.isPlain_textField e he
  · exact Json.isPlain_textsField e he
  · split at he
    · exact List.mem_singleton.1 he ▸ trivial
    · cases he

theorem NftMetadata.isDocument_toValue (m : NftMetadata) : m.toJson.toValue.IsDocument :=
  ⟨m.isFlat_toValue.record, Json.ordered_toValue _⟩

end Metadata

def NftMetadata.field : String := "data"

namespace NftChange

theorem below_patchData {name : String} {value : Value} (hf : value.fields? = none) (ho : value.Ordered) :
    (patchData name value).Below NftMetadata.field :=
  .merge (Value.isFlat_record_singleton name value hf) (Value.isDocument_record (List.forall_mem_singleton.2 ho))

theorem simple_frozen (b : Bool) : (Mutation.merge (.record [("frozen", .bool b)])).Simple :=
  Mutation.simple_merge (by simp) (by simp)

/-- A change is one of the metadata or of fields below it, or tells whether the token is frozen. -/
theorem below_mutations (c : NftChange) : ∀ m ∈ c.mutations,
    m.Below NftMetadata.field ∨ ∃ b, m = .merge (.record [("frozen", .bool b)]) := by
  have hattributes : Path.keys "data.attributes" = [NftMetadata.field, "attributes"] := rfl
  have htags : Path.keys "data.tags" = [NftMetadata.field, "tags"] := rfl
  have hmetadata : Path.keys "data.metadata" = [NftMetadata.field, "metadata"] := rfl
  have huris : Path.keys "data.uris" = [NftMetadata.field, "uris"] := rfl
  have hwhole : Path.keys "data" = [NftMetadata.field] := rfl
  intro m hm
  cases c with
  | setAttributes attributes =>
    simp only [mutations, List.mem_cons, List.not_mem_nil, or_false] at hm
    rcases hm with rfl | rfl | rfl
    · exact .inl (.set hattributes (by simp))
    · exact .inl (.set htags (by simp))
    · split
      · exact .inl (.set hmetadata (by simp))
      · exact .inl (.unset hmetadata)
  | addUris uris =>
    obtain rfl := List.mem_singleton.1 hm
    refine .inl (.addToSet huris fun v hv => ?_)
    obtain ⟨uri, -, rfl⟩ := List.mem_map.1 hv
    trivial
  | setUris uris =>
    obtain rfl := List.mem_singleton.1 hm
    exact .inl (.set huris (by simp))
  | freeze => exact .inr ⟨true, List.mem_singleton.1 hm⟩
  | unFreeze => exact .inr ⟨false, List.mem_singleton.1 hm⟩
  | pause => cases hm
  | unPause => cases hm
  | recreateMetadata data =>
    obtain rfl := List.mem_singleton.1 hm
    exact .inl (.whole hwhole data.isDocument_toValue)
  | updateMetadata data =>
    obtain rfl := List.mem_singleton.1 hm
    exact .inl (.merge data.isFlat_toValue data.isDocument_toValue)
  | modifyCreator creator =>
    obtain rfl := List.mem_singleton.1 hm
    exact .inl (below_patchData (by simp) (by simp))
  | modifyRoyalties royalties =>
    obtain rfl := List.mem_singleton.1 hm
    exact .inl (below_patchData (by simp) (by simp))

theorem nested_mutations (c : NftChange) : ∀ m ∈ c.mutations, m.Nested NftMetadata.field := by
  intro m hm
  rcases c.below_mutations m hm with h | ⟨b, rfl⟩
  · exact h.nested
  · exact (simple_frozen b).nested (Mutation.avoids_merge_singleton (by decide) _)

theorem avoids_mutations (c : NftChange) {key : String} (hk : key ∉ [NftMetadata.field, "frozen"]) :
    ∀ m ∈ c.mutations, m.Avoids key := by
  simp only [List.mem_cons, List.not_mem_nil, or_false, not_or] at hk
  intro m hm
  rcases c.below_mutations m hm with h | ⟨b, rfl⟩
  · exact h.avoids (Ne.symm hk.1)
  · exact Mutation.avoids_merge_singleton (Ne.symm hk.2) _

end NftChange

namespace CollectionFields

variable {c : CollectionFields}

theorem entries_patch : ∀ e ∈ [("type", Value.str c.type), ("ticker", .str c.ticker)] ++
    TokenAccumulator.decimalsField c.decimals, e.2.fields? = none ∧ e.2.Ordered := by
  cases c.decimals <;> simp [TokenAccumulator.decimalsField]

theorem simple_patch (c : CollectionFields) : (Mutation.merge c.patch).Simple :=
  Mutation.simple_merge (fun e he => (entries_patch e he).1) fun e he => (entries_patch e he).2

theorem avoids_patch (c : CollectionFields) {key : String} (hk : key ∉ ["type", "ticker", "numDecimals"]) :
    (Mutation.merge c.patch).Avoids key := by
  refine Mutation.avoids_merge (fun e he => (entries_patch e he).1) fun h => hk ?_
  cases hd : c.decimals <;> simp [hd, TokenAccumulator.decimalsField, Dict.keys] at h ⊢ <;> tauto

theorem get?_patch_type (c : CollectionFields) (doc : Value) :
    ((Mutation.merge c.patch).apply doc).get? "type" = some (.str c.type) := by
  have hflat : c.patch.IsFlat := Value.isFlat_record fun e he => (entries_patch e he).1
  have htype : c.patch.get? "type" = some (.str c.type) := by
    rw [patch, Value.get?_record]
    cases c.decimals <;> simp [TokenAccumulator.decimalsField, Dict.find?]
  rw [Mutation.apply, Value.get?_merge hflat, htype]
  rfl

/-- What a document says of its collection is in three fields. -/
theorem ofDocument?_congr {doc other : Value}
    (h : ∀ key ∈ ["type", "ticker", "numDecimals"], other.get? key = doc.get? key) :
    ofDocument? other = ofDocument? doc := by
  unfold ofDocument?
  rw [h "type" (by simp), h "ticker" (by simp), h "numDecimals" (by simp)]

end CollectionFields

def retyping (type : String) : Mutation := .merge (.record [("type", .str type)])

theorem simple_retyping (type : String) : (retyping type).Simple := Mutation.simple_merge (by simp) (by simp)

theorem get?_retyping (type : String) (doc : Value) (key : String) :
    ((retyping type).apply doc).get? key = if "type" = key then some (.str type) else doc.get? key := by
  rw [retyping, Mutation.get?_merge_singleton, Value.overlay_of_plain (Value.fields?_str type)]

/-- A document that has the type stays as it is. -/
theorem retyping_eq_self {type : String} {doc : Value} (hd : doc.IsDocument)
    (ht : doc.get? "type" = some (.str type)) : (retyping type).apply doc = doc := by
  refine ((simple_retyping type).ordered.apply hd).record.ext hd.record fun key => ?_
  rw [get?_retyping]
  split
  · next hk => rw [← hk, ht]
  · rfl

namespace NftAccumulator

variable {acc : NftAccumulator} {identifier : String} {collection : Option CollectionFields}

def updateMutations (acc : NftAccumulator) : List Mutation := acc.updates.flatMap fun u => u.change.mutations

def creationFields (info : NftInfo) : List (String × Value) :=
  [("identifier", Value.str info.identifier), ("token", .str info.token), ("nonce", .nat info.nonce),
    ("timestamp", .nat info.timestamp)] ++ info.data.toList.map fun data => ("data", data.toJson.toValue)

def laterMutations (acc : NftAccumulator) (collection : Option CollectionFields) : List Mutation :=
  (collection.toList.map fun c => Mutation.merge c.patch) ++ acc.updateMutations

def creationMutations (acc : NftAccumulator) (info : NftInfo) (collection : Option CollectionFields) :
    List Mutation :=
  .mergeIfAbsent (.record (creationFields info)) :: acc.laterMutations collection

/-- The one write of a token removes it, creates it unless it is there, or changes it where it is. -/
theorem write?_cases {item : WriteItem} (h : acc.write? identifier collection = some item) :
    item.id = identifier ∧ (item.action = .delete ∨
      (∃ info, acc.created = some info ∧ item.action = .upsert (acc.creationMutations info collection)) ∨
      item.action = .update acc.updateMutations) := by
  unfold write? at h
  dsimp only at h
  split at h
  · obtain rfl := Option.some.inj h
    exact ⟨rfl, .inl rfl⟩
  · split at h
    · next info hi =>
      obtain rfl := Option.some.inj h
      exact ⟨rfl, .inr (.inl ⟨info, hi, rfl⟩)⟩
    · split at h
      · cases h
      · obtain rfl := Option.some.inj h
        exact ⟨rfl, .inr (.inr rfl)⟩

/-- A token of a non-fungible collection that is burnt or wiped is removed, whatever else is said of it. -/
theorem write?_of_removed {fields : CollectionFields} (hs : acc.supply ≠ []) (hc : collection = some fields)
    (ht : fields.type ∈ nonFungibleTypes) : acc.write? identifier collection = some ⟨identifier, .delete⟩ := by
  have hsupply : acc.supply.isEmpty = false := by simpa using hs
  have hfungible : fields.isNonFungible = true := List.contains_iff_mem.2 ht
  simp [write?, hsupply, hc, hfungible]

/-- Any other token that is created is written. -/
theorem write?_of_created {info : NftInfo} (hi : acc.created = some info)
    (hkept : acc.supply ≠ [] → ∀ fields, collection = some fields → fields.type ∉ nonFungibleTypes) :
    acc.write? identifier collection = some ⟨identifier, .upsert (acc.creationMutations info collection)⟩ := by
  have hstays : (!acc.supply.isEmpty && collection.any (·.isNonFungible)) = false := by
    cases hs : acc.supply with
    | nil => rfl
    | cons first rest =>
      cases hc : collection with
      | none => rfl
      | some fields =>
        have hfungible := hkept (hs ▸ List.cons_ne_nil first rest) fields hc
        simpa [CollectionFields.isNonFungible] using hfungible
  unfold write?
  rw [hstays, hi]
  rfl

theorem nested_updateMutations : ∀ m ∈ acc.updateMutations, m.Nested NftMetadata.field := by
  intro m hm
  obtain ⟨u, -, hm⟩ := List.mem_flatMap.1 hm
  exact u.change.nested_mutations m hm

theorem avoids_updateMutations {key : String} (hk : key ∉ [NftMetadata.field, "frozen"]) :
    ∀ m ∈ acc.updateMutations, m.Avoids key := by
  intro m hm
  obtain ⟨u, -, hm⟩ := List.mem_flatMap.1 hm
  exact u.change.avoids_mutations hk m hm

theorem nested_laterMutations : ∀ m ∈ acc.laterMutations collection, m.Nested NftMetadata.field := by
  intro m hm
  rcases List.mem_append.1 hm with hm | hm
  · obtain ⟨c, -, rfl⟩ := List.mem_map.1 hm
    exact c.simple_patch.nested (c.avoids_patch (by decide))
  · exact nested_updateMutations m hm

/-- What follows a creation touches the fields named here and no others. -/
theorem avoids_laterMutations {key : String}
    (hk : key ∉ [NftMetadata.field, "frozen", "type", "ticker", "numDecimals"]) :
    ∀ m ∈ acc.laterMutations collection, m.Avoids key := by
  simp only [List.mem_cons, List.not_mem_nil, or_false, not_or] at hk
  intro m hm
  rcases List.mem_append.1 hm with hm | hm
  · obtain ⟨c, -, rfl⟩ := List.mem_map.1 hm
    exact c.avoids_patch (by simp [hk])
  · exact avoids_updateMutations (by simp [hk]) m hm

theorem nested_retyping (type : String) : (retyping type).Nested NftMetadata.field :=
  (simple_retyping type).nested (Mutation.avoids_merge_singleton (by decide) _)

theorem entries_creationFields (info : NftInfo) : ∀ e ∈ creationFields info, e.2.Ordered := by
  intro e he
  rcases List.mem_append.1 he with he | he
  · simp only [List.mem_cons, List.not_mem_nil, or_false] at he
    rcases he with rfl | rfl | rfl | rfl <;> trivial
  · obtain ⟨data, -, rfl⟩ := List.mem_map.1 he
    exact data.isDocument_toValue.ordered

theorem ordered_creation (info : NftInfo) : (Value.record (creationFields info)).Ordered :=
  (Value.isDocument_record (entries_creationFields info)).ordered

theorem get?_creation_token (info : NftInfo) :
    (Value.record (creationFields info)).get? "token" = some (.str info.token) := by
  rw [Value.get?_record]
  cases hd : info.data <;> simp [creationFields, hd, Dict.find?]

theorem get?_creation_nonce (info : NftInfo) :
    (Value.record (creationFields info)).get? "nonce" = some (.nat info.nonce) := by
  rw [Value.get?_record]
  cases hd : info.data <;> simp [creationFields, hd, Dict.find?]

theorem collection?_of_created {info : NftInfo} (h : acc.created = some info) : acc.collection? = some info.token := by
  rw [collection?, h]
  rfl

/-- A created token has the type of its collection, or the type that it had. -/
theorem get?_creationMutations_type (acc : NftAccumulator) (info : NftInfo) (collection : Option CollectionFields)
    (doc : Value) : (Mutation.applyAll (acc.creationMutations info collection) doc).get? "type" =
      (collection.map fun c => Value.str c.type).or (doc.get? "type") := by
  have hnone : (Value.record (creationFields info)).get? "type" = none := by
    rw [Value.get?_record]
    cases hd : info.data <;> simp [creationFields, hd, Dict.find?]
  have hfill : ((Mutation.mergeIfAbsent (.record (creationFields info))).apply doc).get? "type" = doc.get? "type" := by
    rw [Mutation.apply, Value.get?_mergeAbsent, hnone, Option.or_none]
  rw [creationMutations, Mutation.applyAll_cons, laterMutations, Mutation.applyAll_append,
    Mutation.get?_applyAll_of_avoids (avoids_updateMutations (by decide))]
  cases collection with
  | none => exact hfill
  | some c =>
    rw [Option.toList_some, List.map_singleton, Mutation.applyAll_cons, Mutation.applyAll_nil, c.get?_patch_type]
    rfl

theorem nested_retypings (type : Option String) : ∀ m ∈ type.toList.map retyping, m.Nested NftMetadata.field := by
  intro m hm
  obtain ⟨t, -, rfl⟩ := List.mem_map.1 hm
  exact nested_retyping t

theorem ordered_creationMutations (acc : NftAccumulator) (info : NftInfo)
    (collection : Option CollectionFields) : ∀ m ∈ acc.creationMutations info collection, m.Ordered :=
  List.forall_mem_cons.2 ⟨ordered_creation info, fun m hm => (nested_laterMutations m hm).ordered⟩

/-- A creation and what follows it, and then perhaps a new type, change nothing more when they are made again. -/
theorem settle_creation (info : NftInfo) (acc : NftAccumulator) (collection : Option CollectionFields)
    (type : Option String) :
    Mutation.Settle (acc.creationMutations info collection ++ type.toList.map retyping) :=
  Mutation.settle_fill_of_nested (ordered_creation info) fun m hm =>
    (List.mem_append.1 hm).elim (nested_laterMutations m) (nested_retypings type m)

theorem settle_update (acc : NftAccumulator) (type : Option String) :
    Mutation.Settle (acc.updateMutations ++ type.toList.map retyping) :=
  Mutation.settle_of_nested fun m hm =>
    (List.mem_append.1 hm).elim (nested_updateMutations m) (nested_retypings type m)

end NftAccumulator
end ChainIndex
