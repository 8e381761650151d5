import ChainIndex.Proofs.Accumulator.Contract
import ChainIndex.Proofs.Accumulator.Token
import ChainIndex.Proofs.Event.Names
import ChainIndex.Proofs.Event.Signals

/-!
What a block's accumulators owe to its deltas: whatever is gathered about a thing comes from a delta
that names it.
-/
namespace ChainIndex

theorem Delta.mem_tokenNames_update {u : NftUpdate} (h : u.change = .pause ∨ u.change = .unPause) :
    u.identifier ∈ (Delta.nftUpdate u).tokenNames := by
  obtain ⟨identifier, address, change⟩ := u
  rcases h with h | h
  · obtain rfl : change = .pause := h
    exact List.mem_singleton_self _
  · obtain rfl : change = .unPause := h
    exact List.mem_singleton_self _

theorem Delta.mem_nftNames_update {u : NftUpdate} (hp : u.change ≠ .pause) (hu : u.change ≠ .unPause) :
    u.identifier ∈ (Delta.nftUpdate u).nftNames := by
  obtain ⟨identifier, address, change⟩ := u
  cases change with
  | pause => exact absurd rfl hp
  | unPause => exact absurd rfl hu
  | _ => exact List.mem_singleton_self _

namespace DelegatorAccumulator

def Gathers (d : DelegatorAccumulator) (cs : List StakeChange) : Prop :=
  ∃ kept, List.Sublist kept cs ∧ d.mutations = kept.flatMap StakeChange.mutations

theorem Gathers.mono {d : DelegatorAccumulator} {cs : List StakeChange} (h : d.Gathers cs)
    (more : List StakeChange) : d.Gathers (cs ++ more) := by
  obtain ⟨kept, hsub, hms⟩ := h
  exact ⟨kept, hsub.trans (List.sublist_append_left cs more), hms⟩

theorem Gathers.add {d : DelegatorAccumulator} {cs : List StakeChange} (h : d.Gathers cs) (c : StakeChange) :
    (d.add c).Gathers (cs ++ [c]) := by
  obtain ⟨kept, hsub, hms⟩ := h
  unfold DelegatorAccumulator.add
  split
  · exact ⟨[], List.nil_sublist _, rfl⟩
  · exact ⟨kept ++ [c], hsub.append (List.Sublist.refl _), by simp [hms]⟩

end DelegatorAccumulator

namespace NftAccumulator

/-- What is gathered about a non-fungible token comes from deltas that name it and its collection. -/
structure NamedBy (n : NftAccumulator) (identifier : String) (events : List Delta) : Prop where
  created : ∀ info, n.created = some info →
    nftIdentifier info.token info.nonce = identifier ∧ info.token ∈ events.flatMap Delta.tokenNames
  supply : ∀ change ∈ n.supply, change.token ∈ events.flatMap Delta.tokenNames

variable {n : NftAccumulator} {identifier : String} {events : List Delta}

theorem namedBy_empty : ({} : NftAccumulator).NamedBy identifier events := ⟨nofun, nofun⟩

theorem NamedBy.mono (h : n.NamedBy identifier events) (more : List Delta) :
    n.NamedBy identifier (events ++ more) :=
  ⟨fun info hi => (h.created info hi).imp_right Delta.mem_names_left,
    fun change hc => Delta.mem_names_left (h.supply change hc)⟩

/-- The collection of a token is named where the token is. -/
theorem NamedBy.collection (h : n.NamedBy identifier events) {c : String} (hc : n.collection? = some c) :
    c ∈ events.flatMap Delta.tokenNames := by
  cases hi : n.created with
  | some info =>
    have hinfo : info.token = c := by simpa [collection?, hi] using hc
    exact hinfo ▸ (h.created info hi).2
  | none =>
    cases hs : n.supply with
    | nil => simp [collection?, hi, hs] at hc
    | cons change rest =>
      have hchange : change.token = c := by simpa [collection?, hi, hs] using hc
      exact hchange ▸ h.supply change (by simp [hs])

end NftAccumulator

def stakesOf (events : List Delta) (id : String) : List StakeChange :=
  (stakeChanges events).filter fun c => delegatorId c.address c.contract = id

theorem stakesOf_append (events more : List Delta) (id : String) :
    stakesOf (events ++ more) id = stakesOf events id ++ stakesOf more id := by
  simp [stakesOf, stakeChanges]

/-- The stakes of a document return no fund that was withdrawn. -/
theorem FundsKept.inOrder {events : List Delta} (h : FundsKept events) (id : String) {kept : List StakeChange}
    (hk : List.Sublist kept (stakesOf events id)) : StakeChange.InOrder kept := by
  have hone : ∀ c ∈ stakesOf events id, delegatorId c.address c.contract = id := fun c hc => by
    simpa using (List.mem_filter.1 hc).2
  have hpairs := List.Pairwise.sublist (hk.trans List.filter_sublist) h
  refine hpairs.imp_of_mem fun {earlier later} he hl hkept => hkept ?_
  rw [hone earlier (hk.subset he), hone later (hk.subset hl)]

namespace BlockAccumulators

variable {acc : BlockAccumulators} {events : List Delta} {delta : Delta} {name : String}

structure Gathers (acc : BlockAccumulators) (events : List Delta) : Prop where
  sortedTokens : acc.tokens.Sorted
  sortedNfts : acc.nfts.Sorted
  sortedDelegators : acc.delegators.Sorted
  sortedContracts : acc.contracts.Sorted
  tokens : ∀ name t, acc.tokens.find? name = some t → t.Ordered ∧ name ∈ events.flatMap Delta.tokenNames
  nfts : ∀ name n, acc.nfts.find? name = some n →
    n.NamedBy name events ∧ name ∈ events.flatMap Delta.nftNames
  delegators : ∀ id d, acc.delegators.find? id = some d → d.Gathers (stakesOf events id)
  contracts : ∀ name c, acc.contracts.find? name = some c → ∀ m ∈ c.mutations, m.Simple

theorem gathers_empty : ({} : BlockAccumulators).Gathers [] :=
  ⟨List.Pairwise.nil, List.Pairwise.nil, List.Pairwise.nil, List.Pairwise.nil, nofun, nofun, nofun, nofun⟩

theorem Gathers.mono (h : acc.Gathers events) (more : List Delta) : acc.Gathers (events ++ more) where
  sortedTokens := h.sortedTokens
  sortedNfts := h.sortedNfts
  sortedDelegators := h.sortedDelegators
  sortedContracts := h.sortedContracts
  tokens := fun name t ht => (h.tokens name t ht).imp_right Delta.mem_names_left
  nfts := fun name n hn => ⟨(h.nfts name n hn).1.mono more, Delta.mem_names_left (h.nfts name n hn).2⟩
  delegators := fun id d hd => by
    rw [stakesOf_append]
    exact (h.delegators id d hd).mono _
  contracts := h.contracts

/-- The accumulator of a token that the events name may change, as long as its order is kept. -/
theorem Gathers.onToken (h : acc.Gathers events) (hn : name ∈ events.flatMap Delta.tokenNames)
    {f : TokenAccumulator → TokenAccumulator} (hf : ∀ t : TokenAccumulator, t.Ordered → (f t).Ordered) :
    (acc.onToken name f).Gathers events := by
  refine { h with sortedTokens := h.sortedTokens.insert name _, tokens := fun other t ht => ?_ }
  simp only [BlockAccumulators.onToken, Dict.find?_alter] at ht
  split at ht
  · next he =>
    obtain rfl := Option.some.inj ht
    refine ⟨hf _ ?_, he ▸ hn⟩
    cases hfound : acc.tokens.find? name with
    | none => exact TokenAccumulator.ordered_empty
    | some known => exact (h.tokens name known hfound).1
  · exact h.tokens other t ht

/-- So may that of a non-fungible token, as long as its deltas name it. -/
theorem Gathers.onNft (h : acc.Gathers events) (hn : name ∈ events.flatMap Delta.nftNames)
    {f : NftAccumulator → NftAccumulator}
    (hf : ∀ n : NftAccumulator, n.NamedBy name events → (f n).NamedBy name events) :
    (acc.onNft name f).Gathers events := by
  refine { h with sortedNfts := h.sortedNfts.insert name _, nfts := fun other n hfind => ?_ }
  simp only [BlockAccumulators.onNft, Dict.find?_alter] at hfind
  split at hfind
  · next he =>
    subst he
    obtain rfl := Option.some.inj hfind
    refine ⟨hf _ ?_, hn⟩
    cases hfound : acc.nfts.find? name with
    | none => exact NftAccumulator.namedBy_empty
    | some known => exact (h.nfts name known hfound).1
  · exact h.nfts other n hfind

theorem Gathers.onContract (h : acc.Gathers events) {ms : List Mutation} (hms : ∀ m ∈ ms, m.Simple) :
    (acc.onContract name ms).Gathers events := by
  refine { h with sortedContracts := h.sortedContracts.insert name _, contracts := fun other c hc => ?_ }
  simp only [BlockAccumulators.onContract, Dict.find?_alter] at hc
  split at hc
  · obtain rfl := Option.some.inj hc
    intro m hm
    rcases List.mem_append.1 hm with hm | hm
    · cases hfound : acc.contracts.find? name with
      | none =>
        rw [hfound] at hm
        cases hm
      | some known =>
        rw [hfound] at hm
        exact h.contracts name known hfound m hm
    · exact hms m hm
  · exact h.contracts other c hc

/-- A stake is gathered with the earlier stakes of its delegator. -/
theorem Gathers.addStake (h : acc.Gathers events) (c : StakeChange) :
    (acc.add (.stake c)).Gathers (events ++ [.stake c]) := by
  have hmono := h.mono [.stake c]
  refine { hmono with
    sortedDelegators := h.sortedDelegators.insert _ _
    delegators := fun id d hd => ?_ }
  simp only [BlockAccumulators.add, Dict.find?_alter] at hd
  split at hd
  · next he =>
    subst he
    obtain rfl := Option.some.inj hd
    have hone : stakesOf [.stake c] (delegatorId c.address c.contract) = [c] := by
      simp [stakesOf, stakeChanges, Delta.stake?]
    rw [stakesOf_append, hone]
    refine DelegatorAccumulator.Gathers.add ?_ c
    cases hfound : acc.delegators.find? (delegatorId c.address c.contract) with
    | none => exact ⟨[], List.nil_sublist _, rfl⟩
    | some known => exact h.delegators _ known hfound
  · exact hmono.delegators id d hd

theorem Gathers.addUpdate (h : acc.Gathers events) (u : NftUpdate) :
    (acc.addUpdate u).Gathers (events ++ [.nftUpdate u]) := by
  have hmono := h.mono [.nftUpdate u]
  have hlast {f : Delta → List String} {name : String} (hn : name ∈ f (.nftUpdate u)) :
      name ∈ (events ++ [Delta.nftUpdate u]).flatMap f := List.mem_flatMap.2 ⟨_, by simp, hn⟩
  unfold BlockAccumulators.addUpdate
  split
  · next hp => exact hmono.onToken (hlast (Delta.mem_tokenNames_update (.inl hp))) fun t ht => ht.setPaused true
  · next hu => exact hmono.onToken (hlast (Delta.mem_tokenNames_update (.inr hu))) fun t ht => ht.setPaused false
  · next hp hu =>
    exact hmono.onNft (hlast (Delta.mem_nftNames_update (fun he => hp he) fun he => hu he)) fun n hn =>
      ⟨hn.created, hn.supply⟩

/-- One delta adds what it says. -/
theorem Gathers.add (h : acc.Gathers events) (hd : delta.Plain) : (acc.add delta).Gathers (events ++ [delta]) := by
  have hmono := h.mono [delta]
  have hlast {f : Delta → List String} {name : String} (hn : name ∈ f delta) :
      name ∈ (events ++ [delta]).flatMap f := List.mem_flatMap.2 ⟨delta, by simp, hn⟩
  cases delta with
  | token info => exact hmono.onToken (hlast (List.mem_singleton_self _)) fun t ht => ht.addToken info
  | role change => exact hmono.onToken (hlast (List.mem_singleton_self _)) fun t ht => ht.addRole change
  | properties change =>
    exact hmono.onToken (hlast (List.mem_singleton_self _)) fun t ht => ht.addProperties change
  | nftCreated info =>
    have hname : info.identifier = nftIdentifier info.token info.nonce := hd
    have hcreated (n : NftAccumulator) (hn : n.NamedBy info.identifier (events ++ [.nftCreated info])) :
        ({ n with created := some info } : NftAccumulator).NamedBy info.identifier (events ++ [.nftCreated info]) := by
      refine ⟨fun other ho => ?_, hn.supply⟩
      obtain rfl := Option.some.inj ho
      exact ⟨hname.symm, hlast (List.mem_singleton_self _)⟩
    exact hmono.onNft (hlast (List.mem_singleton_self _)) hcreated
  | supply change =>
    have hsupply (n : NftAccumulator) (hn : n.NamedBy change.identifier (events ++ [.supply change])) :
        ({ n with supply := n.supply ++ [change] } : NftAccumulator).NamedBy change.identifier
          (events ++ [.supply change]) := by
      refine ⟨hn.created, fun other ho => ?_⟩
      rcases List.mem_append.1 ho with ho | ho
      · exact hn.supply other ho
      · rw [List.mem_singleton.1 ho]
        exact hlast (List.mem_singleton_self _)
    exact hmono.onNft (hlast (List.mem_singleton_self _)) hsupply
  | nftUpdate u => exact h.addUpdate u
  | stake c => exact h.addStake c
  | deployed deployment => exact hmono.onContract deployment.simple_mutations
  | upgraded upgrade => exact hmono.onContract upgrade.simple_mutations
  | ownerChanged change => exact hmono.onContract change.simple_mutations
  | status hash signal => exact { hmono with }

def ofToken (acc : BlockAccumulators) (token : String) : TokenAccumulator := (acc.tokens.find? token).getD {}

/-- The accumulators of other tokens stay as they are. -/
theorem ofToken_onToken (acc : BlockAccumulators) (name token : String) (f : TokenAccumulator → TokenAccumulator) :
    (acc.onToken name f).ofToken token = if name = token then f (acc.ofToken name) else acc.ofToken token := by
  rw [ofToken, onToken, Dict.find?_alter]
  split <;> rfl

theorem Gathers.ordered_ofToken (h : acc.Gathers events) (token : String) : (acc.ofToken token).Ordered := by
  unfold ofToken
  cases hf : acc.tokens.find? token with
  | none => exact TokenAccumulator.ordered_empty
  | some t => exact (h.tokens token t hf).1

end BlockAccumulators

/-- What is gathered from the logs of a block. -/
theorem Registry.gathers_processLogs (r : Registry) (pool : Pool) (timestamp : UInt64) :
    (r.processLogs pool timestamp).Gathers (r.deltas pool timestamp) :=
  r.processLogs_induction pool timestamp BlockAccumulators.gathers_empty fun _ _ _ hd h => h.add hd

end ChainIndex
