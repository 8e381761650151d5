import ChainIndex.Proofs.Accumulator.Coherence
import ChainIndex.Proofs.Accumulator.Supply
import ChainIndex.Proofs.Indexer.CollectionTypes
import ChainIndex.Proofs.Indexer.FailedSaves
import ChainIndex.Proofs.Indexer.Ownership

/-!
The documents of non-fungible tokens. Only a creation makes one: every other change is an update, and updates of what is
not there do nothing. A burn or wipe takes the document away where the collection is of a non-fungible type, and what
else the block says of the token does not bring it back.
-/
namespace ChainIndex

open TokenWrites

variable {acc : BlockAccumulators} {events earlier : List Delta} {s : Store} {id c : String} {doc : Value}
  {n : NftAccumulator}

namespace TokenWrites

/-- The type of a collection is looked for where a token of it is created, burnt or wiped. -/
theorem needsLookup_of_collection (hf : acc.nfts.find? id = some n) (hc : n.collection? = some c) :
    NeedsLookup acc := by
  cases ht : (acc.tokens.find? c).bind TokenAccumulator.type? with
  | none => exact .inr ⟨n, List.mem_map_of_mem (Dict.mem_of_find? hf), c, hc, ht⟩
  | some type =>
    obtain ⟨t, hfound, htype⟩ := Option.bind_eq_some_iff.1 ht
    exact .inl ⟨t, List.mem_map_of_mem (Dict.mem_of_find? hfound), Option.isSome_of_eq_some htype⟩

theorem find?_nfts_of_ne (h : acc.ofNft id ≠ {}) : acc.nfts.find? id = some (acc.ofNft id) := by
  unfold BlockAccumulators.ofNft at h ⊢
  cases hf : acc.nfts.find? id with
  | none =>
    rw [hf] at h
    exact absurd rfl h
  | some n => rfl

theorem find?_nfts_of_supply (hs : (acc.ofNft id).supply ≠ []) : acc.nfts.find? id = some (acc.ofNft id) :=
  find?_nfts_of_ne fun hempty => hs (hempty ▸ rfl)

theorem find?_nfts_of_created {info : NftInfo} (hi : (acc.ofNft id).created = some info) :
    acc.nfts.find? id = some (acc.ofNft id) :=
  find?_nfts_of_ne fun hempty => by
    rw [hempty] at hi
    cases hi

/-- A burn or wipe removes the document where the collection is of a non-fungible type. -/
theorem nftAction_of_removed (hs : (acc.ofNft id).supply ≠ []) (hc : (acc.ofNft id).collection? = some c)
    {fields : CollectionFields} (hf : collectionIn acc s c = some fields) (ht : fields.type ∈ nonFungibleTypes) :
    nftAction acc s id = .delete := by
  have hcollection : (acc.ofNft id).collection?.bind (collectionIn acc s) = some fields := by
    rw [hc, Option.bind_some, hf]
  rw [nftAction, nftAction?, find?_nfts_of_supply hs, Option.bind_some,
    NftAccumulator.write?_of_removed hs hcollection ht]
  rfl

/-- Otherwise a creation makes the document. -/
theorem nftAction_of_created {info : NftInfo} (hi : (acc.ofNft id).created = some info)
    (hkept : (acc.ofNft id).supply ≠ [] → ∀ fields, collectionIn acc s info.token = some fields →
      fields.type ∉ nonFungibleTypes) :
    nftAction acc s id = .upsert ((acc.ofNft id).creationMutations info (collectionIn acc s info.token)) := by
  rw [nftAction, nftAction?, find?_nfts_of_created hi, Option.bind_some, NftAccumulator.collection?_of_created hi,
    Option.bind_some, NftAccumulator.write?_of_created hi hkept]
  rfl

variable (h : Fits acc events earlier s)

include h

/-- A document that a block leaves of a non-fungible token was there before, or the block creates the token. -/
theorem Fits.exists_of_writtenOn (hid : id ∉ events.flatMap Delta.tokenNames) (hd : writtenOn acc s id = some doc) :
    (s.get? Index.tokens id).isSome ∨ ∃ info, (acc.ofNft id).created = some info := by
  rw [h.writtenOn_nft hid] at hd
  obtain ⟨before, hbefore, -⟩ := Option.map_eq_some_iff.1 hd
  rcases nftAction_cases acc s id with ha | ⟨n, info, hf, hi, -⟩ | ⟨n, ha⟩
  · rw [ha] at hbefore
    cases hbefore
  · refine .inr ⟨info, ?_⟩
    rw [BlockAccumulators.ofNft, hf, Option.getD_some, hi]
  · rw [ha] at hbefore
    obtain ⟨old, hold, -⟩ := Option.map_eq_some_iff.1 hbefore
    exact .inl (Option.isSome_of_eq_some hold)

end TokenWrites

namespace Indexer

variable (ix : Indexer) (block : Block)

/-- An event of the block creates the token, and is accepted. -/
def Creates (id : String) : Prop :=
  ∃ log ∈ block.pool.logs, ∃ event ∈ log.events, event.identifier = "DCDTNFTCreate" ∧
    ∃ info : NftInfo, info.identifier = id ∧
      Classifier.nfts.classify event (ix.registry.context block.pool block.header.timestamp log) =
        .single (.nftCreated info)

/-- An event of the block burns or wipes a token, and is accepted. -/
def Removes (change : SupplyChange) : Prop :=
  ∃ log ∈ block.pool.logs, ∃ event ∈ log.events,
    Classifier.nfts.classify event (ix.registry.context block.pool block.header.timestamp log) =
      .single (.supply change)

/-- The type of a collection while the block is saved: the one that the block gives it, or else the stored one. -/
def typeOf? (s : Store) (c : String) : Option String := (lastType? (ix.acceptedOf block c)).or (s.collectionType c)

variable {ix block}

/-- What the block says comes from events that the classifier of that kind takes. -/
theorem mem_filterMap_deltas {α : Type} {c : Classifier} {f : Delta → Option α}
    (hf : ∀ delta : Delta, delta.source ≠ c → f delta = none) {a : α} :
    a ∈ (ix.deltas block).filterMap f ↔ ∃ log ∈ block.pool.logs, ∃ event ∈ log.events,
      a ∈ (c.classify event (ix.registry.context block.pool block.header.timestamp log)).accepted f := by
  rw [deltas, Registry.filterMap_deltas_of_source (ix.mem_classifiers c) hf, Registry.mem_accepted]

/-- A creation is one of an event that the classifier takes as such. -/
theorem mem_creationsOf_iff {info : NftInfo} : info ∈ creationsOf (ix.deltas block) id ↔ info.identifier = id ∧
    ∃ log ∈ block.pool.logs, ∃ event ∈ log.events,
      Classifier.nfts.classify event (ix.registry.context block.pool block.header.timestamp log) =
        .single (.nftCreated info) := by
  rw [creationsOf, List.mem_filter, mem_filterMap_deltas fun _ => Delta.created?_of_source, decide_eq_true_iff,
    and_comm]
  simp only [Classifier.mem_created_iff]

theorem mem_removalsOf_iff {change : SupplyChange} :
    change ∈ removalsOf (ix.deltas block) id ↔ ix.Removes block change ∧ change.identifier = id := by
  rw [removalsOf, List.mem_filter, mem_filterMap_deltas fun _ => Delta.supply?_of_source, decide_eq_true_iff]
  simp only [Classifier.mem_supply_iff, Removes]

/-- A token that the block creates is created for its accumulator. -/
theorem creates_iff : ix.Creates block id ↔ ∃ info, ((ix.accumulate block).ofNft id).created = some info := by
  rw [accumulate, (ix.registry.supplied_processLogs _ _).created]
  constructor
  · rintro ⟨log, hlog, event, hevent, -, info, hid, hclassified⟩
    have hmem : info ∈ creationsOf (ix.deltas block) id :=
      mem_creationsOf_iff.2 ⟨hid, log, hlog, event, hevent, hclassified⟩
    exact ⟨_, List.getLast?_eq_some_getLast (List.ne_nil_of_mem hmem)⟩
  · rintro ⟨info, hinfo⟩
    obtain ⟨hid, log, hlog, event, hevent, hclassified⟩ := mem_creationsOf_iff.1 (List.mem_of_getLast? hinfo)
    exact ⟨log, hlog, event, hevent, Classifier.identifier_of_created hclassified, info, hid, hclassified⟩

/-- The type of a collection is looked up in the block, and then in the store. -/
theorem map_type_collectionIn_accumulate (s : Store) (c : String) :
    (collectionIn (ix.accumulate block) s c).map (·.type) = ix.typeOf? block s c := by
  have hblock : Dict.find? (newTypes (ix.accumulate block)) c = lastType? (ix.acceptedOf block c) := by
    rw [find?_newTypes (ix.gathers_accumulate block), ← ix.infosOf_deltas block, deltas,
      ← Registry.type?_ofToken_processLogs, accumulate, BlockAccumulators.ofToken]
    cases (ix.registry.processLogs block.pool block.header.timestamp).tokens.find? c <;> rfl
  rw [map_type_collectionIn (ix.gathers_accumulate block), hblock, typeOf?]

theorem supply_eq (ix : Indexer) (block : Block) (id : String) :
    ((ix.accumulate block).ofNft id).supply = removalsOf (ix.deltas block) id :=
  (ix.registry.supplied_processLogs _ _).supply id

/-- Whatever names the collection of a burnt token names the same. -/
theorem Removes.collection? {change : SupplyChange} (h : ix.Removes block change) :
    ((ix.accumulate block).ofNft change.identifier).collection? = some change.token := by
  have hmem : change ∈ ((ix.accumulate block).ofNft change.identifier).supply := by
    rw [supply_eq]
    exact mem_removalsOf_iff.2 ⟨h, rfl⟩
  have hf := find?_nfts_of_supply (List.ne_nil_of_mem hmem)
  obtain ⟨token, nonce, -, -, habout⟩ :=
    ix.registry.coherent_processLogs block.pool block.header.timestamp _ (Dict.mem_of_find? hf)
  exact habout.collection?_of_supply hmem

/-- A block that names the collection of a token is only saved where tokens are available. -/
theorem available_of_collection {down : List String} {report : FlushReport}
    (hf : (ix.accumulate block).nfts.find? id = some n) (hc : n.collection? = some c)
    (hok : (ix.saveBlock block (s.withUnavailable down)).1 = .ok report) : Index.tokens ∉ down := by
  intro hdown
  rw [saveBlock_fst, ix.run_save_of_lookup block hdown (needsLookup_of_collection hf hc)] at hok
  cases hok

/-- A save that succeeds does to a non-fungible token that the block creates or burns what its write says. -/
theorem get?_savedPartly_nft (h : s.Sound events) (hn : NamesApart (ix.deltas block ++ events))
    {down : List String} {report : FlushReport} (hf : (ix.accumulate block).nfts.find? id = some n)
    (hc : n.collection? = some c) (hok : (ix.saveBlock block (s.withUnavailable down)).1 = .ok report) :
    (ix.savedPartly block down s).get? Index.tokens id =
      ((nftAction (ix.accumulate block) s id).apply (s.get? Index.tokens id)).map
        (Mutation.applyAll ((retype? (ix.accumulate block) s id).toList.map retyping)) := by
  have hid : id ∉ (ix.deltas block).flatMap Delta.tokenNames := fun hname =>
    hn id (Delta.mem_names_left hname) (Delta.mem_names_left ((ix.gathers_accumulate block).nfts id n hf).2)
  rcases get?_savedPartly_tokens (fits h hn) down with ⟨hdown, -⟩ | ⟨-, hget⟩
  · exact absurd hdown (available_of_collection hf hc hok)
  · rw [hget, (fits h hn).writtenOn_nft hid]

section Saved

variable (h : s.Sound events) (hn : NamesApart (ix.deltas block ++ events)) {down : List String}
  {report : FlushReport} (hok : (ix.saveBlock block (s.withUnavailable down)).1 = .ok report)

include h hn hok

/-- A save that succeeds leaves no document of a burnt token of a non-fungible collection. -/
theorem get?_savedPartly_of_removes {change : SupplyChange} (hchange : ix.Removes block change) {type : String}
    (ht : type ∈ nonFungibleTypes) (htype : ix.typeOf? block s change.token = some type) :
    (ix.savedPartly block down s).get? Index.tokens change.identifier = none := by
  obtain ⟨fields, hfields, rfl⟩ := Option.map_eq_some_iff.1 ((map_type_collectionIn_accumulate s _).trans htype)
  have hsupply : ((ix.accumulate block).ofNft change.identifier).supply ≠ [] := by
    rw [supply_eq]
    exact List.ne_nil_of_mem (mem_removalsOf_iff.2 ⟨hchange, rfl⟩)
  rw [get?_savedPartly_nft h hn (find?_nfts_of_supply hsupply) hchange.collection? hok,
    nftAction_of_removed hsupply hchange.collection? hfields ht]
  rfl

/-- A save that succeeds leaves a document of every other token that the block creates. -/
theorem isSome_savedPartly_of_creates (hcreates : ix.Creates block id)
    (hkept : ∀ change, ix.Removes block change → change.identifier = id → ∀ type ∈ nonFungibleTypes,
      ix.typeOf? block s change.token ≠ some type) :
    ((ix.savedPartly block down s).get? Index.tokens id).isSome := by
  obtain ⟨info, hi⟩ := creates_iff.1 hcreates
  have hcollection := NftAccumulator.collection?_of_created hi
  have hstays (hsupply : ((ix.accumulate block).ofNft id).supply ≠ []) (fields : CollectionFields)
      (hfields : collectionIn (ix.accumulate block) s info.token = some fields) : fields.type ∉ nonFungibleTypes := by
    obtain ⟨change, hmem⟩ := List.exists_mem_of_ne_nil _ (supply_eq ix block id ▸ hsupply)
    obtain ⟨hchange, rfl⟩ := mem_removalsOf_iff.1 hmem
    have htoken := Option.some.inj (hcollection.symm.trans hchange.collection?)
    refine fun htype => hkept change hchange rfl fields.type htype ?_
    rw [← map_type_collectionIn_accumulate, ← htoken, hfields]
    rfl
  rw [get?_savedPartly_nft h hn (find?_nfts_of_created hi) hcollection hok, nftAction_of_created hi hstays]
  rfl

end Saved

end Indexer

namespace Call

/-- A call creates a token if it saves a block that does, and reaches the tokens. -/
def Creates (id : String) : Call → Prop
  | save ix block down => Index.tokens ∉ down ∧ ix.Creates block id
  | revert .. => False

/-- A document of a non-fungible token that a call leaves was there before, or the call creates the token. -/
theorem exists_of_perform (hrun : Run events s) {call : Call} (hn : NamesApart (call.deltas ++ events))
    (hid : id ∉ call.deltas.flatMap Delta.tokenNames) (hd : ((call.perform s).get? Index.tokens id).isSome) :
    (s.get? Index.tokens id).isSome ∨ call.Creates id := by
  cases call with
  | save ix block down =>
    have hfits := Indexer.fits (hrun.sound hn.of_append) hn
    rw [perform_save] at hd
    rcases Indexer.get?_savedPartly_tokens hfits down with ⟨-, hsame⟩ | ⟨hdown, hget⟩
    · rw [hsame] at hd
      exact .inl hd
    · rw [hget] at hd
      obtain ⟨doc, hdoc⟩ := Option.isSome_iff_exists.1 hd
      exact (hfits.exists_of_writtenOn hid hdoc).imp_right fun hi => ⟨hdown, Indexer.creates_iff.2 hi⟩
  | revert ix header body down =>
    rw [perform_revert, Rollback.get?_attempt_of_not_mem ix.denomination header body down (by decide) s id] at hd
    exact .inl hd

/-- A document of a non-fungible token that calls leave was there before, or one of them creates the token. -/
theorem exists_of_performAll {calls : List Call} (hrun : Run events s) (ho : ∀ call ∈ calls, call.Ordered)
    (hn : NamesApart (told calls ++ events)) (hid : id ∉ (told calls ++ events).flatMap Delta.tokenNames)
    (hd : ((performAll calls s).get? Index.tokens id).isSome) :
    (s.get? Index.tokens id).isSome ∨ ∃ call ∈ calls, call.Creates id := by
  induction calls generalizing events s with
  | nil => exact .inl hd
  | cons call rest ih =>
    obtain ⟨hcall, hrest⟩ := List.forall_mem_cons.1 ho
    rw [told_cons_append] at hn hid
    rcases ih (run_perform hrun hcall) hrest hn hid hd with hnext | ⟨later, hl, hcreates⟩
    · have hnamed : id ∉ call.deltas.flatMap Delta.tokenNames := fun hname =>
        hid (Delta.mem_names_right (Delta.mem_names_left hname))
      exact (exists_of_perform hrun hn.of_append hnamed hnext).imp_right fun hcreates =>
        ⟨call, List.mem_cons_self, hcreates⟩
    · exact .inr ⟨later, List.mem_cons_of_mem call hl, hcreates⟩

/-- A burnt token that a save leaves no document of has none after later calls, unless one of them creates it again. -/
theorem exists_of_performAll_cons {ix : Indexer} {block : Block} {down : List String} {later : List Call}
    (hrun : Run events s) (ho : ∀ call ∈ save ix block down :: later, call.Ordered)
    (hn : NamesApart (told (save ix block down :: later) ++ events)) {change : SupplyChange}
    (hchange : ix.Removes block change)
    (hgone : ((save ix block down).perform s).get? Index.tokens change.identifier = none)
    (hd : ((performAll (save ix block down :: later) s).get? Index.tokens change.identifier).isSome) :
    ∃ call ∈ later, call.Creates change.identifier := by
  rw [told_cons_append] at hn
  obtain ⟨hsave, hlater⟩ := List.forall_mem_cons.1 ho
  have hnft : change.identifier ∈ (told later ++ (ix.deltas block ++ events)).flatMap Delta.nftNames :=
    Delta.mem_names_right (Delta.mem_names_left (mem_nftNames_of_removalsOf
      (Indexer.mem_removalsOf_iff.2 ⟨hchange, rfl⟩)))
  refine (exists_of_performAll (run_perform hrun hsave) hlater hn (fun hname => hn _ hname hnft) hd).resolve_left ?_
  rw [hgone]
  exact Bool.false_ne_true

/-- Documents of non-fungible tokens come into being by creation alone, and a burnt token has none. The calls are saves
and reverts from an empty store, whatever indices are unavailable during each of them. A stored token is a token or
collection that an event names, and no event of a non-fungible token does, or one of the calls saved a block with an
accepted creation of it. A save that succeeds, of a block with an accepted burn or wipe, leaves no document of the token
if its collection is of a non-fungible type, by what the block says or else by what is stored, whatever else the block
says of the token; and there is none later unless a later call creates the token again. Of any other token that an
accepted event of the block creates, such a save leaves a document. -/
theorem nfts_from_creation_to_burn (n : Nat) {calls : List Call} (ho : ∀ call ∈ calls, call.Ordered)
    (hn : NamesApart (calls.flatMap deltas)) :
    let events := calls.flatMap deltas
    let last := performAll calls (Store.withPageSize n)
    (∀ id doc, last.get? Index.tokens id = some doc →
      (id ∈ events.flatMap Delta.tokenNames ∧ id ∉ events.flatMap Delta.nftNames) ∨
        ∃ call ∈ calls, call.Creates id) ∧
    ∀ before ix block down later report, calls = before ++ .save ix block down :: later →
      let s := performAll before (Store.withPageSize n)
      let saved := (save ix block down).perform s
      (ix.saveBlock block (s.withUnavailable down)).1 = .ok report →
      (∀ change, ix.Removes block change →
        ∀ type ∈ nonFungibleTypes, ix.typeOf? block s change.token = some type →
          saved.get? Index.tokens change.identifier = none ∧
            ((last.get? Index.tokens change.identifier).isSome → ∃ call ∈ later, call.Creates change.identifier)) ∧
      ∀ id, ix.Creates block id →
        (∀ change, ix.Removes block change → change.identifier = id →
          ∀ type ∈ nonFungibleTypes, ix.typeOf? block s change.token ≠ some type) →
        (saved.get? Index.tokens id).isSome := by
  intro events last
  have htold := namesApart_told hn
  constructor
  · intro id doc hd
    by_cases hid : id ∈ events.flatMap Delta.tokenNames
    · exact .inl ⟨hid, hn id hid⟩
    · have hnamed : id ∉ (told calls).flatMap Delta.tokenNames := fun hname =>
        hid (Delta.mem_names_of_subset (told_subset calls) hname)
      rw [← List.append_nil (told calls)] at htold hnamed
      have hborn := exists_of_performAll (.start n) ho htold hnamed (Option.isSome_of_eq_some hd)
      exact .inr (hborn.resolve_left Bool.false_ne_true)
  · rintro before ix block down later report rfl s saved hok
    have hsaved : saved = ix.savedPartly block down s := perform_save ix block down
    have hsplit : last = performAll (save ix block down :: later) s := List.foldl_append
    obtain ⟨hbefore, hfrom⟩ := List.forall_mem_append.1 ho
    have hrun := run_performAll_withPageSize n hbefore
    rw [told_append] at htold
    have hblock : NamesApart (ix.deltas block ++ told before) := by
      have hcons := htold
      rw [told_cons_append] at hcons
      exact hcons.of_append
    have hsound := hrun.sound htold.of_append
    refine ⟨fun change hchange type ht htype => ?_, fun id hcreates hkept => ?_⟩
    · have hgone : saved.get? Index.tokens change.identifier = none := by
        rw [hsaved]
        exact Indexer.get?_savedPartly_of_removes hsound hblock hok hchange ht htype
      refine ⟨hgone, fun hd => ?_⟩
      rw [hsplit] at hd
      exact exists_of_performAll_cons hrun hfrom htold hchange hgone hd
    · rw [hsaved]
      exact Indexer.isSome_savedPartly_of_creates hsound hblock hok hcreates hkept

/-- A block creates a token and then issues its collection. The next burns the token, creates it again and gives the
collection a non-fungible type; the last updates the token that is no more. -/
theorem nfts_from_creation_to_burn_retyped :
    let ix : Indexer := {}
    let create : Event :=
      { address := [1], identifier := "DCDTNFTCreate", topics := [[67], [1], [1], DigitalToken.encode {}] }
    let burn : Event := { address := [1], identifier := "DCDTNFTBurn", topics := [[67], [1], [1]] }
    let update : Event :=
      { address := [1], identifier := "DCDTNFTUpdateAttributes", topics := [[67], [1], [1], [65]] }
    let issue (type : String) : Event :=
      { address := [1], identifier := "issueNonFungible", topics := [[67], [67], [67], Utf8.encode type] }
    let first : Block := { header := { hash := [1] }, pool := { logs := [{ events := [create, issue "S"] }] } }
    let second : Block :=
      { header := { hash := [2] }, pool := { logs := [{ events := [burn, create, issue "NonFungibleDCDT"] }] } }
    let third : Block := { header := { hash := [3] }, pool := { logs := [{ events := [update] }] } }
    let before : List Call := [.save ix first []]
    let later : List Call := [.save ix third []]
    let calls : List Call := before ++ .save ix second [] :: later
    let created := performAll before (Store.withPageSize 10)
    let last := performAll calls (Store.withPageSize 10)
    (∀ call ∈ calls, call.Ordered) ∧ NamesApart (calls.flatMap deltas) ∧
      (created.get? Index.tokens "C-01").isSome ∧
      ((save ix second []).perform created).get? Index.tokens "C-01" = none ∧
      last.get? Index.tokens "C-01" = none := by
  intro ix create burn update issue first second third before later calls created last
  have hfirst : first.Ordered := ⟨List.Pairwise.nil, List.Pairwise.nil⟩
  have hsecond : second.Ordered := ⟨List.Pairwise.nil, List.Pairwise.nil⟩
  have hthird : third.Ordered := ⟨List.Pairwise.nil, List.Pairwise.nil⟩
  have hordered : ∀ call ∈ calls, call.Ordered := by
    simp [calls, before, later, Ordered, hfirst, hsecond, hthird]
  have hapart : NamesApart (calls.flatMap deltas) := by decide +kernel
  have hbefore : ∀ call ∈ before, call.Ordered := (List.forall_mem_append.1 hordered).1
  have honly : NamesApart (before.flatMap deltas) := by decide +kernel
  have hok (block : Block) (calls : List Call) :
      ∃ report, (ix.saveBlock block ((performAll calls (Store.withPageSize 10)).withUnavailable [])).1 = .ok report :=
    ⟨_, Indexer.saveBlock_eq_ok (usable_performAll calls (Store.usable_withPageSize 10))
      (fun hdown => absurd hdown List.not_mem_nil) fun _ _ => List.not_mem_nil⟩
  obtain ⟨firstReport, hfirstSaved⟩ := hok first []
  obtain ⟨secondReport, hsecondSaved⟩ := hok second before
  obtain ⟨-, hborn⟩ := nfts_from_creation_to_burn 10 hbefore honly
  obtain ⟨-, hburnt⟩ := nfts_from_creation_to_burn 10 hordered hapart
  obtain ⟨-, hcreated⟩ := hborn [] ix first [] [] firstReport rfl hfirstSaved
  obtain ⟨hremoved, -⟩ := hburnt before ix second [] later secondReport rfl hsecondSaved
  have hcreates : ix.Creates first "C-01" :=
    Indexer.creates_iff.2 (Option.isSome_iff_exists.1 (by decide +kernel))
  have hunburnt : removalsOf (ix.deltas first) "C-01" = [] := by decide +kernel
  have hstored : (created.get? Index.tokens "C-01").isSome := by
    have hone (call : Call) (s : Store) : performAll [call] s = call.perform (performAll [] s) := rfl
    have hsaved : created = (save ix first []).perform (performAll [] (Store.withPageSize 10)) := hone _ _
    rw [hsaved]
    refine hcreated "C-01" hcreates fun change hchange hid => ?_
    have hmem := Indexer.mem_removalsOf_iff.2 ⟨hchange, hid⟩
    rw [hunburnt] at hmem
    cases hmem
  have htype : ix.typeOf? second created "C" = some "NonFungibleDCDT" := by
    have hlast : lastType? (ix.acceptedOf second "C") = some "NonFungibleDCDT" := by decide +kernel
    rw [Indexer.typeOf?, hlast]
    rfl
  have hremoves : Classifier.nfts.classify burn (ix.registry.context second.pool 0
      { events := [burn, create, issue "NonFungibleDCDT"] }) =
        .single (.supply ⟨.burn, "C-01", "C", 1, ⟨1, by decide⟩, 0⟩) := by decide +kernel
  have hnone : ∀ call ∈ later, ¬call.Creates "C-01" := by
    rintro call hc
    obtain rfl := List.mem_singleton.1 hc
    rintro ⟨-, log, hlog, event, hevent, hname, -⟩
    obtain rfl := List.mem_singleton.1 hlog
    obtain rfl := List.mem_singleton.1 hevent
    exact absurd hname (by decide)
  obtain ⟨hgone, hlater⟩ := hremoved _ ⟨_, List.mem_singleton_self _, burn, List.mem_cons_self, hremoves⟩
    "NonFungibleDCDT" (by decide) htype
  refine ⟨hordered, hapart, hstored, hgone, Option.not_isSome_iff_eq_none.1 fun hd => ?_⟩
  obtain ⟨call, hc, hcall⟩ := hlater hd
  exact hnone call hc hcall

end Call
end ChainIndex
