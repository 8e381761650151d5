import ChainIndex.Proofs.Accumulator.Owners

/-!
Creations and removals of non-fungible tokens. Of all that a block says of a token the accumulator keeps the last
creation and every burn and wipe, and of a collection the type that its last issue or type change gives it.
-/
namespace ChainIndex

variable {events : List Delta} {id : String}

namespace Delta

def created? : Delta → Option NftInfo
  | nftCreated info => some info
  | _ => none

def supply? : Delta → Option SupplyChange
  | supply change => some change
  | _ => none

theorem created?_of_source {delta : Delta} (h : delta.source ≠ .nfts) : delta.created? = none := by
  cases delta with
  | nftCreated info => exact absurd rfl h
  | _ => rfl

theorem supply?_of_source {delta : Delta} (h : delta.source ≠ .nfts) : delta.supply? = none := by
  cases delta with
  | supply change => exact absurd rfl h
  | _ => rfl

end Delta

section Accepted

variable {event : Event} {ctx : EventContext}

/-- An event says nothing, or it creates a token, or it is a burn or a wipe. -/
theorem Classify.nfts_cases (name : EventName) (event : Event) (ctx : EventContext) :
    (nfts name event ctx).deltas?.getD [] = [] ∨
    (name = .nftCreate ∧ ∃ info, nfts name event ctx = .single (.nftCreated info)) ∨
    ∃ change, nfts name event ctx = .single (.supply change) := by
  have created (token : Bytes) (nonce : UInt64) (rest : List Bytes) :
      nftCreated token nonce rest ctx = .swallowed ∨
        ∃ info, nftCreated token nonce rest ctx = .single (.nftCreated info) := by
    unfold nftCreated
    split
    · exact .inl rfl
    · split
      · exact .inl rfl
      · exact .inr ⟨_, rfl⟩
  have removed (kind : SupplyKind) (token : Bytes) (nonce : UInt64) (value : Bytes) :
      nftRemoved kind token nonce value ctx = .swallowed ∨
        ∃ change, nftRemoved kind token nonce value ctx = .single (.supply change) := by
    unfold nftRemoved
    split
    · exact .inl rfl
    · exact .inr ⟨_, rfl⟩
  unfold nfts
  split
  · exact .inl rfl
  · next kind token nonce value rest hkind htopics =>
    split
    · exact .inl rfl
    · exact .inl rfl
    · next found account hnonce haddress =>
      cases kind with
      | create =>
        have hname : name = .nftCreate := by cases name <;> first | rfl | cases hkind
        rcases created token found rest with h | h
        · exact .inl (congrArg (·.deltas?.getD []) h)
        · exact .inr (.inl ⟨hname, h⟩)
      | remove removal =>
        rcases removed removal token found value with h | h
        · exact .inl (congrArg (·.deltas?.getD []) h)
        · exact .inr (.inr h)
  · exact .inl rfl

namespace Classifier

/-- So it is with the classifier; only events of the one name create tokens. -/
theorem nfts_cases (event : Event) (ctx : EventContext) :
    (nfts.classify event ctx).deltas?.getD [] = [] ∨
    (∃ info, nfts.classify event ctx = .single (.nftCreated info) ∧ event.identifier = EventName.nftCreate.text) ∨
    ∃ change, nfts.classify event ctx = .single (.supply change) := by
  unfold classify
  split
  · next name hname =>
    rw [classifyNamed]
    rcases Classify.nfts_cases name event ctx with hnone | ⟨rfl, info, hcreated⟩ | hremoved
    · exact .inl hnone
    · exact .inr (.inl ⟨info, hcreated, (EventName.text_of_ofText? hname).symm⟩)
    · exact .inr (.inr hremoved)
  · exact .inl rfl

variable {info : NftInfo} {change : SupplyChange}

/-- An event that creates a token says nothing else. -/
theorem mem_created_iff :
    info ∈ (nfts.classify event ctx).accepted Delta.created? ↔
      nfts.classify event ctx = .single (.nftCreated info) := by
  constructor
  · intro h
    rcases nfts_cases event ctx with hnone | ⟨created, hcreated, -⟩ | ⟨removed, hremoved⟩
    · rw [Outcome.accepted, hnone] at h
      cases h
    · rw [hcreated] at h ⊢
      rw [List.mem_singleton.1 h]
    · rw [hremoved] at h
      cases h
  · intro h
    rw [h]
    exact List.mem_singleton_self info

/-- An event that burns or wipes says nothing else. -/
theorem mem_supply_iff :
    change ∈ (nfts.classify event ctx).accepted Delta.supply? ↔
      nfts.classify event ctx = .single (.supply change) := by
  constructor
  · intro h
    rcases nfts_cases event ctx with hnone | ⟨created, hcreated, -⟩ | ⟨removed, hremoved⟩
    · rw [Outcome.accepted, hnone] at h
      cases h
    · rw [hcreated] at h
      cases h
    · rw [hremoved] at h ⊢
      rw [List.mem_singleton.1 h]
  · intro h
    rw [h]
    exact List.mem_singleton_self change

theorem identifier_of_created (h : nfts.classify event ctx = .single (.nftCreated info)) :
    event.identifier = EventName.nftCreate.text := by
  rcases nfts_cases event ctx with hnone | ⟨-, -, hname⟩ | ⟨removed, hremoved⟩
  · rw [h] at hnone
    cases hnone
  · exact hname
  · cases h.symm.trans hremoved

end Classifier

end Accepted

def creationsOf (events : List Delta) (id : String) : List NftInfo :=
  (events.filterMap Delta.created?).filter (·.identifier = id)

def removalsOf (events : List Delta) (id : String) : List SupplyChange :=
  (events.filterMap Delta.supply?).filter (·.identifier = id)

theorem creationsOf_append (events more : List Delta) (id : String) :
    creationsOf (events ++ more) id = creationsOf events id ++ creationsOf more id := by
  simp [creationsOf]

theorem removalsOf_append (events more : List Delta) (id : String) :
    removalsOf (events ++ more) id = removalsOf events id ++ removalsOf more id := by
  simp [removalsOf]

/-- Events that burn or wipe a token name it. -/
theorem mem_nftNames_of_removalsOf {change : SupplyChange} (h : change ∈ removalsOf events id) :
    id ∈ events.flatMap Delta.nftNames := by
  obtain ⟨hchange, hid⟩ := List.mem_filter.1 h
  obtain ⟨delta, hd, hdelta⟩ := List.mem_filterMap.1 hchange
  refine List.mem_flatMap.2 ⟨delta, hd, ?_⟩
  cases delta with
  | supply other =>
    obtain rfl := Option.some.inj hdelta
    exact List.mem_singleton.2 (of_decide_eq_true hid).symm
  | _ => cases hdelta

namespace BlockAccumulators

variable {acc : BlockAccumulators}

def ofNft (acc : BlockAccumulators) (id : String) : NftAccumulator := (acc.nfts.find? id).getD {}

theorem ofNft_onNft (acc : BlockAccumulators) (name id : String) (f : NftAccumulator → NftAccumulator) :
    (acc.onNft name f).ofNft id = if name = id then f (acc.ofNft id) else acc.ofNft id := by
  rw [ofNft, onNft, Dict.find?_alter]
  split
  · next he =>
    rw [he]
    rfl
  · rfl

/-- A delta puts its creation over an earlier one, and its burn or wipe behind those before. -/
theorem exists_ofNft_add (acc : BlockAccumulators) (delta : Delta) (id : String) :
    ∃ updates, (acc.add delta).ofNft id = {
      created := (creationsOf [delta] id).getLast?.or (acc.ofNft id).created
      updates
      supply := (acc.ofNft id).supply ++ removalsOf [delta] id } := by
  have skip (hc : delta.created? = none) (hs : delta.supply? = none) (updates : List NftUpdate) :
      { acc.ofNft id with updates } = {
        created := (creationsOf [delta] id).getLast?.or (acc.ofNft id).created
        updates
        supply := (acc.ofNft id).supply ++ removalsOf [delta] id : NftAccumulator } := by
    simp [creationsOf, removalsOf, hc, hs]
  cases delta with
  | nftCreated info =>
    have hsupply : (Delta.nftCreated info).supply? = none := rfl
    refine ⟨(acc.ofNft id).updates, ?_⟩
    rw [BlockAccumulators.add, ofNft_onNft]
    split
    · next he => simp [creationsOf, removalsOf, hsupply, Delta.created?, he]
    · next he => simp [creationsOf, removalsOf, hsupply, Delta.created?, he]
  | supply change =>
    have hcreated : (Delta.supply change).created? = none := rfl
    refine ⟨(acc.ofNft id).updates, ?_⟩
    rw [BlockAccumulators.add, ofNft_onNft]
    split
    · next he => simp [creationsOf, removalsOf, hcreated, Delta.supply?, he]
    · next he => simp [creationsOf, removalsOf, hcreated, Delta.supply?, he]
  | nftUpdate u =>
    unfold BlockAccumulators.add BlockAccumulators.addUpdate
    dsimp only
    split
    · exact ⟨_, skip rfl rfl _⟩
    · exact ⟨_, skip rfl rfl _⟩
    · rw [ofNft_onNft]
      split
      · exact ⟨_, skip rfl rfl _⟩
      · exact ⟨_, skip rfl rfl _⟩
  | _ => exact ⟨_, skip rfl rfl _⟩

structure Supplied (acc : BlockAccumulators) (events : List Delta) : Prop where
  created : ∀ id, (acc.ofNft id).created = (creationsOf events id).getLast?
  supply : ∀ id, (acc.ofNft id).supply = removalsOf events id

theorem supplied_empty : ({} : BlockAccumulators).Supplied [] := ⟨fun _ => rfl, fun _ => rfl⟩

/-- One delta adds what it says. -/
theorem Supplied.add (h : acc.Supplied events) (delta : Delta) : (acc.add delta).Supplied (events ++ [delta]) := by
  refine ⟨fun id => ?_, fun id => ?_⟩
  · obtain ⟨updates, hadd⟩ := exists_ofNft_add acc delta id
    rw [hadd, creationsOf_append, List.getLast?_append, h.created]
  · obtain ⟨updates, hadd⟩ := exists_ofNft_add acc delta id
    rw [hadd, removalsOf_append, h.supply]

end BlockAccumulators

def lastType? (infos : List TokenInfo) : Option String :=
  (infos.filter (·.kind ≠ .transferOwnership)).getLast?.map (·.type)

theorem TokenAccumulator.type?_addToken {acc : TokenAccumulator} {infos : List TokenInfo}
    (h : acc.type? = lastType? infos) (info : TokenInfo) : (acc.addToken info).type? = lastType? (infos ++ [info]) := by
  unfold addToken
  split
  · next hk => simp [lastType?, hk, type?, describe]
  · next hk => simp [lastType?, hk, type?, describe]
  · next hk =>
    rw [lastType?] at h
    simpa [lastType?, hk, type?] using h

namespace Registry

/-- What is gathered of the supply of tokens from the logs of a block. -/
theorem supplied_processLogs (r : Registry) (pool : Pool) (timestamp : UInt64) :
    (r.processLogs pool timestamp).Supplied (r.deltas pool timestamp) :=
  r.processLogs_induction pool timestamp BlockAccumulators.supplied_empty fun _ _ delta _ h => h.add delta

/-- The type that is gathered of a token from the logs of a block. -/
theorem type?_ofToken_processLogs (r : Registry) (pool : Pool) (timestamp : UInt64) (token : String) :
    ((r.processLogs pool timestamp).ofToken token).type? = lastType? (infosOf (r.deltas pool timestamp) token) :=
  r.ofToken_processLogs_induction (motive := fun t infos => t.type? = lastType? infos) pool timestamp rfl
    (fun _ _ info h => TokenAccumulator.type?_addToken h info) (fun _ _ _ _ _ h => h) token

end Registry

end ChainIndex
