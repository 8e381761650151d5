import ChainIndex.Proofs.Indexer.TokenWrites
import ChainIndex.Proofs.Store.Answers

/-!
Blocks that need stored tokens to be written. Without them such a block has no token writes at all; any other
block has the same ones whatever the store holds, and asks for none of it.
-/
namespace ChainIndex
namespace TokenWrites

variable {acc : BlockAccumulators} {s : Store} {down : List String}

/-- The block gives a token a type, which stored tokens may have to take, or it creates or burns a non-fungible
token to whose collection it gives none. -/
def NeedsLookup (acc : BlockAccumulators) : Prop :=
  (∃ t ∈ acc.tokens.values, t.type?.isSome) ∨
    ∃ n ∈ acc.nfts.values, ∃ c, n.collection? = some c ∧ (acc.tokens.find? c).bind TokenAccumulator.type? = none

theorem fromBlock?_eq_none_iff (acc : BlockAccumulators) (c : String) :
    fromBlock? acc c = none ↔ (acc.tokens.find? c).bind TokenAccumulator.type? = none := by
  unfold fromBlock?
  cases acc.tokens.find? c with
  | none => simp
  | some t => simp [CollectionFields.ofAccumulator?, TokenAccumulator.type?]

theorem newTypes_eq_nil_iff (acc : BlockAccumulators) :
    newTypes acc = [] ↔ ∀ t ∈ acc.tokens.values, t.type? = none := by
  rw [newTypes, List.filterMap_eq_nil_iff, Dict.values, List.forall_mem_map]
  simp

def missingCollections (acc : BlockAccumulators) : List String :=
  (neededCollections acc).filter fun c => (fromBlock? acc c).isNone

/-- No collection is looked up where the block itself gives a type to each. -/
theorem missingCollections_eq_nil_iff (acc : BlockAccumulators) :
    missingCollections acc = [] ↔ ∀ n ∈ acc.nfts.values, ∀ c, n.collection? = some c →
      (acc.tokens.find? c).bind TokenAccumulator.type? ≠ none := by
  simp only [missingCollections, List.filter_eq_nil_iff, mem_neededCollections_iff, Option.isNone_iff_eq_none,
    fromBlock?_eq_none_iff]
  exact ⟨fun h n hn c hc => h c ⟨n, hn, hc⟩, fun h c ⟨n, hn, hc⟩ => h n hn c hc⟩

theorem needsLookup_iff : NeedsLookup acc ↔ newTypes acc ≠ [] ∨ missingCollections acc ≠ [] := by
  rw [Ne, newTypes_eq_nil_iff, Ne, missingCollections_eq_nil_iff, NeedsLookup]
  simp [Option.isSome_iff_ne_none]

theorem within_propagateAll (types : List (String × String)) : (propagateAll types).Within [Index.tokens] := by
  induction types with
  | nil => exact StoreM.within_pure _
  | cons e rest ih =>
    have hfirst : (propagate e.1 e.2).Within [Index.tokens] :=
      (StoreM.within_scroll _ _).bind fun _ => StoreM.within_pure _
    exact hfirst.bind fun _ => ih.bind fun _ => StoreM.within_pure _

theorem within_tokenWrites (acc : BlockAccumulators) : (tokenWrites acc).Within [Index.tokens] := by
  have hcollections : (collections acc).Within [Index.tokens] := by
    unfold collections
    dsimp only
    split
    · exact StoreM.within_pure _
    · exact (StoreM.within_multiGet _ _).bind fun _ => StoreM.within_pure _
  exact hcollections.bind fun _ => (within_propagateAll _).bind fun _ => StoreM.within_pure _

theorem stops_propagateAll {types : List (String × String)} (h : types ≠ []) :
    (propagateAll types).StopsWithout Index.tokens := by
  cases types with
  | nil => exact absurd rfl h
  | cons e rest => exact ((StoreM.stops_scroll _ _).bind _).bind _

theorem collections_eq_pure (h : missingCollections acc = []) : ∃ fields, collections acc = pure fields := by
  rw [missingCollections] at h
  unfold collections
  dsimp only
  rw [if_pos (List.isEmpty_iff.2 h)]
  exact ⟨_, rfl⟩

theorem stops_collections (h : missingCollections acc ≠ []) : (collections acc).StopsWithout Index.tokens := by
  rw [missingCollections] at h
  unfold collections
  dsimp only
  rw [if_neg fun hempty => h (List.isEmpty_iff.1 hempty)]
  exact (StoreM.stops_multiGet _ _).bind _

theorem stops_tokenWrites (h : NeedsLookup acc) : (tokenWrites acc).StopsWithout Index.tokens := by
  unfold tokenWrites
  by_cases hmissing : missingCollections acc = []
  · obtain ⟨fields, hfields⟩ := collections_eq_pure hmissing
    have htypes : newTypes acc ≠ [] := (needsLookup_iff.1 h).resolve_right (Classical.not_not.2 hmissing)
    rw [hfields]
    exact (stops_propagateAll htypes).bind _
  · exact (stops_collections hmissing).bind _

/-- The token writes of a block that needs no stored token are known without the store. -/
theorem tokenWrites_eq_pure (h : ¬NeedsLookup acc) : ∃ items, tokenWrites acc = pure items := by
  rw [needsLookup_iff, not_or, Ne, Classical.not_not, Ne, Classical.not_not] at h
  obtain ⟨htypes, hmissing⟩ := h
  obtain ⟨fields, hfields⟩ := collections_eq_pure hmissing
  unfold tokenWrites
  rw [hfields, htypes]
  exact ⟨_, rfl⟩

/-- Any other block has its token writes whatever is unavailable, and leaves the store alone. -/
theorem gives_itemsOn_of_available (acc : BlockAccumulators) (h : s.Usable)
    (hup : Index.tokens ∈ down → ¬NeedsLookup acc) :
    (tokenWrites acc).Gives (s.withUnavailable down) (itemsOn acc s) (s.withUnavailable down) := by
  have hgives := gives_itemsOn acc h
  by_cases hd : Index.tokens ∈ down
  · obtain ⟨items, hitems⟩ := tokenWrites_eq_pure (hup hd)
    rw [hitems] at hgives ⊢
    have hsame : Except.ok items = Except.ok (itemsOn acc s) := congrArg Prod.fst hgives
    rw [Except.ok.inj hsame]
    exact StoreM.gives_pure _ _
  · exact hgives.withUnavailable (within_tokenWrites acc) h (List.forall_mem_singleton.2 hd)

end TokenWrites
end ChainIndex
