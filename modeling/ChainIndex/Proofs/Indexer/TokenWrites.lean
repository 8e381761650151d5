import ChainIndex.Indexer.TokenWrites
import ChainIndex.Proofs.Accumulator.Block
import ChainIndex.Proofs.Accumulator.Nft
import ChainIndex.Proofs.Indexer.Fanout

/-!
The token writes of a block, by what the store answers to its look-ups: the fields of the collections, and
the stored tokens that take a new type. A document has at most one write as a token, one as a non-fungible
token, and one new type.
-/
namespace ChainIndex

variable {acc : BlockAccumulators} {events : List Delta} {s : Store} {id c type : String} {doc : Value}

namespace TokenWrites

section Collections

def collectionIn (acc : BlockAccumulators) (s : Store) (c : String) : Option CollectionFields :=
  (fromBlock? acc c).or ((s.get? Index.tokens c).bind CollectionFields.ofDocument?)

theorem mem_neededCollections_iff :
    c ∈ neededCollections acc ↔ ∃ n ∈ acc.nfts.values, n.collection? = some c := by
  rw [neededCollections, ← Dict.has_iff, Dict.has, Dict.find?_ofList, Option.isSome_iff_ne_none, Ne,
    Dict.find?_eq_none_iff, Classical.not_not]
  simp [Dict.keys]

/-- The needed collections are found with their fields. -/
theorem gives_collectionsIn (acc : BlockAccumulators) (h : s.Usable) :
    ∃ fields, (collections acc).Gives s fields s ∧
      ∀ c ∈ neededCollections acc, fields.find? c = collectionIn acc s c := by
  have hknown (c : String) (hc : c ∈ neededCollections acc) :
      Dict.find? ((neededCollections acc).filterMap fun c => (fromBlock? acc c).map (c, ·)).reverse c =
        fromBlock? acc c := by
    rw [← List.filterMap_reverse, Dict.find?_filterMap_keys, if_pos (List.mem_reverse.2 hc)]
  unfold collections
  dsimp only
  split
  · next hempty =>
    refine ⟨_, StoreM.gives_pure _ s, fun c hc => ?_⟩
    have hnone : fromBlock? acc c ≠ none := by
      simpa using List.filter_eq_nil_iff.1 (List.isEmpty_iff.1 hempty) c hc
    obtain ⟨found, hfound⟩ := Option.ne_none_iff_exists'.1 hnone
    rw [Dict.find?_ofList, hknown c hc, collectionIn, hfound]
    rfl
  · refine ⟨_, (StoreM.gives_multiGet h _ _).bind (StoreM.gives_pure _ s), fun c hc => ?_⟩
    have hzip (names : List String) : (names.zip (names.map (s.get? Index.tokens))).filterMap (fun e =>
        (e.2.bind CollectionFields.ofDocument?).map (e.1, ·)) =
        names.filterMap fun c => ((s.get? Index.tokens c).bind CollectionFields.ofDocument?).map (c, ·) := by
      induction names with
      | nil => rfl
      | cons name rest ih => rw [List.map_cons, List.zip_cons_cons, List.filterMap_cons, List.filterMap_cons, ih]
    rw [hzip, Dict.find?_ofList, List.reverse_append, Dict.find?_append, hknown c hc,
      ← List.filterMap_reverse, Dict.find?_filterMap_keys, collectionIn]
    cases hblock : fromBlock? acc c with
    | none => simp [hc, hblock]
    | some found => simp [hblock]

end Collections

section Types

def memberOf? (doc : Value) : Option String :=
  if (doc.get? "nonce").any (!·.isNull) then (doc.get? "token").bind Value.text? else none

theorem memberOf?_of_no_nonce (h : doc.get? "nonce" = none) : memberOf? doc = none := by
  simp [memberOf?, h]

/-- A member of a collection has a nonce and the collection's name. -/
theorem memberOf?_eq_some_iff : memberOf? doc = some c ↔
    (doc.get? "nonce").any (!·.isNull) = true ∧ doc.get? "token" = some (.str c) := by
  unfold memberOf?
  constructor
  · intro h
    split at h
    · next hnonce =>
      obtain ⟨v, hv, ht⟩ := Option.bind_eq_some_iff.1 h
      cases v with
      | str text =>
        obtain rfl := Option.some.inj ht
        exact ⟨hnonce, hv⟩
      | _ => cases ht
    · cases h
  · rintro ⟨hnonce, htoken⟩
    rw [if_pos hnonce, htoken]
    rfl

theorem get?_token_of_memberOf? (h : memberOf? doc = some c) : doc.get? "token" = some (.str c) :=
  (memberOf?_eq_some_iff.1 h).2

theorem memberOf?_congr {other : Value} (hn : other.get? "nonce" = doc.get? "nonce")
    (ht : other.get? "token" = doc.get? "token") : memberOf? other = memberOf? doc := by
  rw [memberOf?, memberOf?, hn, ht]

theorem selects_ofCollection : (ofCollection c).selects doc = true ↔ memberOf? doc = some c := by
  have htoken : Path.keys "token" = ["token"] := rfl
  have hnonce : Path.keys "nonce" = ["nonce"] := rfl
  simp only [ofCollection, Query.selects, Query.allSelect, Value.lookup?_of_keys htoken, Value.lookup?_of_keys hnonce,
    memberOf?, Bool.and_true, Bool.and_eq_true]
  cases hn : (doc.get? "nonce").any (!·.isNull) with
  | false => simp
  | true =>
    cases doc.get? "token" with
    | none => simp
    | some v =>
      cases v <;> simp [Value.same, Value.text?]

def lacksType (type : String) (doc : Value) : Bool := (doc.get? "type").bind Value.text? ≠ some type

def retypes (s : Store) (c type : String) : List WriteItem :=
  ((s.selected Index.tokens (ofCollection c)).filter fun doc => lacksType type doc.source).map
    fun doc => ⟨doc.id, .update [retyping type]⟩

theorem gives_propagate (h : s.Usable) (c type : String) : (propagate c type).Gives s (retypes s c type) s :=
  (StoreM.gives_scroll h _ _).bind (StoreM.gives_pure _ s)

theorem gives_propagateAll_retypes (types : List (String × String)) (h : s.Usable) :
    (propagateAll types).Gives s (types.flatMap fun e => retypes s e.1 e.2) s := by
  induction types with
  | nil => exact StoreM.gives_pure _ s
  | cons e rest ih => exact (gives_propagate h e.1 e.2).bind (ih.bind (StoreM.gives_pure _ s))

theorem actionsOf_retypes (h : s.Usable) (id c type : String) :
    WriteItem.actionsOf id (retypes s c type) =
      (((s.get? Index.tokens id).filter fun doc => (ofCollection c).selects doc && lacksType type doc).map
        fun _ => .update [retyping type]).toList := by
  have hitems : retypes s c type = ((s.index Index.tokens).filter fun e =>
      (ofCollection c).selects e.2 && lacksType type e.2).filterMap
        fun e => some ⟨e.1, .update [retyping type]⟩ := by
    simp only [retypes, Store.selected, Store.documents, List.filter_filter, List.filter_map, List.map_map,
      List.filterMap_eq_map', Function.comp_def, Bool.and_comm]
  have hsorted := h.ordered Index.tokens
  rw [hitems, WriteItem.actionsOf_filterMap id
    (f := fun key _ => some ⟨key, .update [retyping type]⟩) (hsorted.filter _).nodup_keys
    fun key v item hi => by rw [← Option.some.inj hi]]
  have hfind := hsorted.find?_filter_value (fun doc => (ofCollection c).selects doc && lacksType type doc) id
  rw [hfind]
  unfold Store.get?
  cases Option.filter _ (Dict.find? (s.index Index.tokens) id) <;> rfl

/-- The type that the block gives the collection of a stored token, if the token has another. -/
def newType? (acc : BlockAccumulators) (doc : Value) : Option String :=
  ((memberOf? doc).bind (Dict.find? (newTypes acc))).filter (lacksType · doc)

/-- A document keeps its type if its collection gets none, or the same. -/
theorem newType?_eq_none_iff : newType? acc doc = none ↔ ∀ c type, memberOf? doc = some c →
    Dict.find? (newTypes acc) c = some type → (doc.get? "type").bind Value.text? = some type := by
  unfold newType?
  cases memberOf? doc with
  | none => simp
  | some c =>
    constructor
    · intro h other type hc ht
      obtain rfl := Option.some.inj hc
      rw [Option.bind_some, ht, Option.filter_some] at h
      simpa [lacksType] using h
    · intro h
      rw [Option.bind_some]
      cases ht : Dict.find? (newTypes acc) c with
      | none => rfl
      | some type => simp [Option.filter_some, lacksType, h c type rfl ht]

theorem newType?_of_no_nonce (h : doc.get? "nonce" = none) : newType? acc doc = none := by
  rw [newType?, memberOf?_of_no_nonce h]
  rfl

theorem exists_memberOf?_of_newType? (h : newType? acc doc = some type) :
    ∃ c, memberOf? doc = some c ∧ Dict.find? (newTypes acc) c = some type := by
  rw [newType?, Option.filter_eq_some_iff, Option.bind_eq_some_iff] at h
  exact h.1

variable (hg : acc.Gathers events)

include hg

theorem nodup_keys_newTypes : (Dict.keys (newTypes acc)).Nodup :=
  Dict.nodup_keys_filterMap hg.sortedTokens.nodup_keys TokenAccumulator.type?

theorem find?_newTypes (c : String) :
    Dict.find? (newTypes acc) c = (acc.tokens.find? c).bind TokenAccumulator.type? :=
  Dict.find?_filterMap hg.sortedTokens.nodup_keys TokenAccumulator.type? c

/-- A document takes the type of its one collection. -/
theorem actionsOf_flatMap_retypes (h : s.Usable) (id : String) :
    WriteItem.actionsOf id ((newTypes acc).flatMap fun e => retypes s e.1 e.2) =
      (((s.get? Index.tokens id).bind (newType? acc)).map fun type => .update [retyping type]).toList := by
  have hnodup := nodup_keys_newTypes hg
  unfold newType?
  generalize newTypes acc = types at hnodup
  induction types with
  | nil =>
    cases s.get? Index.tokens id with
    | none => rfl
    | some doc => cases hm : memberOf? doc <;> simp [WriteItem.actionsOf, hm]
  | cons e rest ih =>
    obtain ⟨c, type⟩ := e
    obtain ⟨hout, hrest⟩ := List.nodup_cons.1 hnodup
    have hnone : Dict.find? rest c = none := Dict.find?_eq_none_iff.2 hout
    rw [List.flatMap_cons, WriteItem.actionsOf_append, actionsOf_retypes h, ih hrest]
    cases hd : s.get? Index.tokens id with
    | none => rfl
    | some doc =>
      by_cases hm : memberOf? doc = some c
      · have hselects := selects_ofCollection.2 hm
        cases hl : lacksType type doc <;> simp [hm, hnone, hselects, hl, Dict.find?, Option.filter_some]
      · have hselects : (ofCollection c).selects doc = false :=
          Bool.eq_false_iff.2 fun hs => hm (selects_ofCollection.1 hs)
        cases hmember : memberOf? doc with
        | none => simp [hselects, hmember, Option.filter_some]
        | some other =>
          have hne : c ≠ other := fun he => hm (he ▸ hmember)
          simp [hselects, hmember, Dict.find?, hne, Option.filter_some]

end Types

section Items

def itemsOn (acc : BlockAccumulators) (s : Store) : List WriteItem :=
  (acc.tokens.filterMap fun e => e.2.write? e.1) ++
    (acc.nfts.filterMap fun e => e.2.write? e.1 (e.2.collection?.bind (collectionIn acc s))) ++
    (newTypes acc).flatMap fun e => retypes s e.1 e.2

theorem gives_itemsOn (acc : BlockAccumulators) (h : s.Usable) : (tokenWrites acc).Gives s (itemsOn acc s) s := by
  obtain ⟨fields, hfields, hfind⟩ := gives_collectionsIn acc h
  have hnfts : (acc.nfts.filterMap fun e => e.2.write? e.1 (e.2.collection?.bind fields.find?)) =
      acc.nfts.filterMap fun e => e.2.write? e.1 (e.2.collection?.bind (collectionIn acc s)) := by
    refine List.filterMap_congr fun e he => ?_
    cases hc : e.2.collection? with
    | none => rfl
    | some c =>
      have hneeded := mem_neededCollections_iff.2 ⟨e.2, List.mem_map.2 ⟨e, he, rfl⟩, hc⟩
      rw [Option.bind_some, Option.bind_some, hfind c hneeded]
  unfold itemsOn
  rw [← hnfts]
  exact hfields.bind ((gives_propagateAll_retypes _ h).bind (StoreM.gives_pure _ s))

def tokenAction? (acc : BlockAccumulators) (id : String) : Option WriteAction :=
  ((acc.tokens.find? id).bind fun t => t.write? id).map (·.action)

def nftAction? (acc : BlockAccumulators) (s : Store) (id : String) : Option WriteAction :=
  ((acc.nfts.find? id).bind fun n => n.write? id (n.collection?.bind (collectionIn acc s))).map (·.action)

def writtenOn (acc : BlockAccumulators) (s : Store) (id : String) : Option Value :=
  WriteAction.applyAll (WriteItem.actionsOf id (itemsOn acc s)) (s.get? Index.tokens id)

/-- A document of the tokens is written as a token, as a non-fungible one, and by its collection's type, in this
order. -/
theorem actionsOf_itemsOn (hg : acc.Gathers events) (h : s.Usable) (id : String) :
    WriteItem.actionsOf id (itemsOn acc s) = (tokenAction? acc id).toList ++ (nftAction? acc s id).toList ++
      (((s.get? Index.tokens id).bind (newType? acc)).map fun type => .update [retyping type]).toList := by
  have htokens := WriteItem.actionsOf_filterMap id hg.sortedTokens.nodup_keys
    (f := fun name t => t.write? name) fun name t item hi => (TokenAccumulator.write?_cases hi).1
  have hnfts := WriteItem.actionsOf_filterMap id hg.sortedNfts.nodup_keys
    (f := fun name n => n.write? name (n.collection?.bind (collectionIn acc s)))
    fun name n item hi => (NftAccumulator.write?_cases hi).1
  rw [itemsOn, WriteItem.actionsOf_append, WriteItem.actionsOf_append, htokens, hnfts,
    actionsOf_flatMap_retypes hg h]
  rfl

end Items

end TokenWrites
end ChainIndex
