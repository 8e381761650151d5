import ChainIndex.Proofs.Indexer.Runs

/-!
The types of non-fungible tokens. A stored one has the type that its stored collection has, whatever order
the events came in: a creation takes the type from its block or else from the store, and a type that a block
gives the collection goes to the stored tokens that have another.
-/
namespace ChainIndex

variable {acc : BlockAccumulators} {events earlier : List Delta} {s t : Store} {id c : String} {doc : Value}

def Value.typeText (stored : Option Value) : Option String := (under stored "type").bind text?

/-- The type of a stored collection. -/
def Store.collectionType (s : Store) (c : String) : Option String := Value.typeText (s.get? Index.tokens c)

namespace TokenWrites

section Types

theorem map_type_ofDocument? (stored : Option Value) :
    (stored.bind CollectionFields.ofDocument?).map (·.type) = Value.typeText stored := by
  cases stored with
  | none => rfl
  | some doc =>
    rw [Value.typeText, Value.under_some, Option.bind_some]
    cases ht : doc.get? "type" with
    | none => simp [CollectionFields.ofDocument?, ht]
    | some v => cases htext : v.text? <;> simp [CollectionFields.ofDocument?, ht, htext]

theorem map_type_fromBlock? (hg : acc.Gathers events) (c : String) :
    (fromBlock? acc c).map (·.type) = Dict.find? (newTypes acc) c := by
  rw [find?_newTypes hg, fromBlock?]
  cases acc.tokens.find? c with
  | none => rfl
  | some tok => exact Option.map_map _ _ _

/-- The type that a creation takes is the one that the block gives, or else the stored one. -/
theorem map_type_collectionIn (hg : acc.Gathers events) (s : Store) (c : String) :
    (collectionIn acc s c).map (·.type) = (Dict.find? (newTypes acc) c).or (s.collectionType c) := by
  rw [collectionIn, Option.map_or, map_type_fromBlock? hg, map_type_ofDocument?]
  rfl

/-- A stored token that had the type of its collection has it still once it took the new one. -/
theorem newType?_or {known : Option String} (hc : memberOf? doc = some c)
    (ht : doc.get? "type" = known.map Value.str) : ((newType? acc doc).map Value.str).or (doc.get? "type") =
      ((Dict.find? (newTypes acc) c).or known).map Value.str := by
  rw [newType?, hc, Option.bind_some]
  cases hf : Dict.find? (newTypes acc) c with
  | none => exact ht
  | some type =>
    cases hl : lacksType type doc with
    | true => simp [Option.filter_some, hl]
    | false =>
      have hsame : (known.map Value.str).bind Value.text? = some type := by simpa [lacksType, ht] using hl
      cases known with
      | none => cases hsame
      | some old =>
        obtain rfl := Option.some.inj hsame
        simp [Option.filter_some, hl, ht]

end Types

section Members

/-- A document of a token or collection, or of a non-fungible token that has the type of its collection. -/
inductive HasType (events : List Delta) (type : String → Option String) (id : String) (doc : Value) : Prop
  | token : id ∈ events.flatMap Delta.tokenNames → doc.get? "nonce" = none → HasType events type id doc
  | member (c : String) : memberOf? doc = some c → c ∈ events.flatMap Delta.tokenNames →
      doc.get? "type" = (type c).map Value.str → HasType events type id doc

def HaveTypes (events : List Delta) (s : Store) : Prop :=
  ∀ id doc, s.get? Index.tokens id = some doc → HasType events s.collectionType id doc

/-- More events change nothing while the stored tokens stay. -/
theorem HaveTypes.mono (h : HaveTypes events s) (hsame : ∀ id, t.get? Index.tokens id = s.get? Index.tokens id)
    (more : List Delta) : HaveTypes (more ++ events) t := by
  have htype : t.collectionType = s.collectionType := by
    funext c
    rw [Store.collectionType, Store.collectionType, hsame]
  intro id doc hd
  rw [htype]
  rw [hsame] at hd
  cases h id doc hd with
  | token hid hnonce => exact .token (Delta.mem_names_right hid) hnonce
  | member c hc hname ht => exact .member c hc (Delta.mem_names_right hname) ht

/-- A stored non-fungible token belongs to a collection that events name, and has its type. -/
theorem HasType.member_of_nft {type : String → Option String} (h : HasType earlier type id doc)
    (hn : NamesApart (events ++ earlier)) (hid : id ∈ events.flatMap Delta.nftNames) :
    ∃ c, memberOf? doc = some c ∧ c ∈ earlier.flatMap Delta.tokenNames ∧ doc.get? "type" = (type c).map Value.str := by
  cases h with
  | token htoken hnonce => exact absurd (Delta.mem_names_left hid) (hn id (Delta.mem_names_right htoken))
  | member c hc hname ht => exact ⟨c, hc, hname, ht⟩

variable (h : Fits acc events earlier s)

include h

/-- A collection has the type that the block gives it, or else the one that it had. -/
theorem Fits.typeText_writtenOn (hc : c ∈ (events ++ earlier).flatMap Delta.tokenNames) :
    Value.typeText (writtenOn acc s c) = (collectionIn acc s c).map (·.type) := by
  rw [h.writtenOn_token hc, collectionIn, Option.map_or, map_type_ofDocument?]
  cases hb : fromBlock? acc c with
  | none =>
    have hkeeps : (tokenAction acc c).Keeps "type" := keeps_tokenAction_of_untold hb (by simp)
    rw [Value.typeText, hkeeps]
    rfl
  | some fields =>
    obtain ⟨tok, htok, hfields⟩ := Option.bind_eq_some_iff.1 hb
    obtain ⟨static, hstatic, rfl⟩ := Option.map_eq_some_iff.1 hfields
    have haction : tokenAction acc c = .upsert (tok.allMutations c) := by
      rw [tokenAction, tokenAction?, htok, Option.bind_some, TokenAccumulator.write?_of_static hstatic]
      rfl
    rw [haction, WriteAction.apply, Value.typeText, Value.under_some,
      TokenAccumulator.get?_allMutations_type hstatic]
    rfl

/-- A token that the block creates, or that is there already, is of its collection. -/
theorem Fits.memberOf?_of_creation {n : NftAccumulator} {info : NftInfo} (ht : HaveTypes earlier s)
    (hf : acc.nfts.find? id = some n) (hi : n.created = some info) :
    memberOf? (Mutation.applyAll (n.creationMutations info (n.collection?.bind (collectionIn acc s)))
      ((s.get? Index.tokens id).getD .empty)) = some info.token := by
  refine memberOf?_eq_some_iff.2 ⟨?_, h.get?_token_of_creation hf hi⟩
  rw [NftAccumulator.creationMutations, Mutation.applyAll_cons,
    Mutation.get?_applyAll_of_avoids (NftAccumulator.avoids_laterMutations (by decide)), Mutation.apply,
    Value.get?_mergeAbsent, NftAccumulator.get?_creation_nonce]
  cases hd : s.get? Index.tokens id with
  | none => rfl
  | some doc =>
    obtain ⟨c, hc, -, -⟩ := (ht id doc hd).member_of_nft h.apart (h.gathers.nfts id n hf).2
    have hnonce := (memberOf?_eq_some_iff.1 hc).1
    rw [Option.getD_some]
    cases hn : doc.get? "nonce" with
    | none => simp [hn] at hnonce
    | some v => simpa [hn] using hnonce

/-- Where the collection gives no type there was none. -/
theorem Fits.no_type_of_creation {n : NftAccumulator} {info : NftInfo} (ht : HaveTypes earlier s)
    (hf : acc.nfts.find? id = some n) (hi : n.created = some info) (hnone : collectionIn acc s info.token = none) :
    ((s.get? Index.tokens id).getD .empty).get? "type" = none := by
  cases hd : s.get? Index.tokens id with
  | none => rfl
  | some doc =>
    obtain ⟨hnamed, hid⟩ := h.gathers.nfts id n hf
    obtain ⟨c, hc, -, htype⟩ := (ht id doc hd).member_of_nft h.apart hid
    obtain ⟨hname, -⟩ := hnamed.created info hi
    subst hname
    have htoken := (h.documents _ doc hd).token h.apart hid
    rw [get?_token_of_memberOf? hc] at htoken
    have hcollection := map_type_collectionIn h.gathers s info.token
    rw [hnone, ← Value.str.inj (Option.some.inj htoken)] at hcollection
    have hstored : s.collectionType c = none := (Option.or_eq_none_iff.1 hcollection.symm).2
    rw [Option.getD_some, htype, hstored]
    rfl

/-- A token that the block creates, or that is there already, has the type of its collection. -/
theorem Fits.hasType_of_creation {n : NftAccumulator} {info : NftInfo} (ht : HaveTypes earlier s)
    (hf : acc.nfts.find? id = some n) (hi : n.created = some info) :
    HasType (events ++ earlier) (fun c => (collectionIn acc s c).map (·.type)) id
      (Mutation.applyAll ((retype? acc s id).toList.map retyping)
        (Mutation.applyAll (n.creationMutations info (n.collection?.bind (collectionIn acc s)))
          ((s.get? Index.tokens id).getD .empty))) := by
  have hmember := h.memberOf?_of_creation ht hf hi
  refine .member info.token ?_ (Delta.mem_names_left ((h.gathers.nfts id n hf).1.created info hi).2) ?_
  · rw [memberOf?_congr (Mutation.get?_applyAll_of_avoids (avoids_retypings (by decide)) _)
      (Mutation.get?_applyAll_of_avoids (avoids_retypings (by decide)) _), hmember]
  · rw [get?_retypings_type]
    cases hnew : retype? acc s id with
    | some type =>
      rw [map_type_collectionIn h.gathers, h.find?_newTypes_of_retype? hf hi hnew]
      rfl
    | none =>
      rw [Option.map_none, Option.none_or, NftAccumulator.get?_creationMutations_type,
        NftAccumulator.collection?_of_created hi, Option.bind_some]
      cases hc : collectionIn acc s info.token with
      | some fields => rfl
      | none => exact h.no_type_of_creation ht hf hi hc

/-- A stored token that the block may update has the type of its collection. -/
theorem Fits.hasType_of_update (n : NftAccumulator) (ht : HaveTypes earlier s)
    (hd : s.get? Index.tokens id = some doc) :
    HasType (events ++ earlier) (fun c => (collectionIn acc s c).map (·.type)) id
      (Mutation.applyAll ((retype? acc s id).toList.map retyping) (Mutation.applyAll n.updateMutations doc)) := by
  have hretype : retype? acc s id = newType? acc doc := by
    rw [retype?, hd]
    rfl
  have hkeep {key : String} (hk : key ∉ [NftMetadata.field, "frozen"]) (ht : "type" ≠ key) :
      (Mutation.applyAll ((retype? acc s id).toList.map retyping)
        (Mutation.applyAll n.updateMutations doc)).get? key = doc.get? key := by
    rw [Mutation.get?_applyAll_of_avoids (avoids_retypings ht),
      Mutation.get?_applyAll_of_avoids (NftAccumulator.avoids_updateMutations hk)]
  cases ht id doc hd with
  | token hid hnonce => exact .token (Delta.mem_names_right hid) ((hkeep (by decide) (by decide)).trans hnonce)
  | member c hc hname htype =>
    refine .member c ?_ (Delta.mem_names_right hname) ?_
    · rw [memberOf?_congr (hkeep (by decide) (by decide)) (hkeep (by decide) (by decide)), hc]
    · rw [get?_retypings_type, hretype,
        Mutation.get?_applyAll_of_avoids (NftAccumulator.avoids_updateMutations (by decide)),
        map_type_collectionIn h.gathers]
      exact newType?_or hc htype

/-- A block leaves every non-fungible token with the type of its collection. -/
theorem Fits.haveTypes_writtenOn (ht : HaveTypes earlier s)
    (hget : ∀ id, t.get? Index.tokens id = writtenOn acc s id) : HaveTypes (events ++ earlier) t := by
  intro id doc hd
  rw [hget] at hd
  have hwritten : HasType (events ++ earlier) (fun c => (collectionIn acc s c).map (·.type)) id doc := by
    by_cases hid : id ∈ (events ++ earlier).flatMap Delta.tokenNames
    · rcases (h.tokenDocument_writtenOn hd).named with ⟨-, hnonce⟩ | ⟨hnft, -⟩
      · exact .token hid hnonce
      · exact absurd hnft (h.apart id hid)
    · rw [h.writtenOn_nft fun hname => hid (Delta.mem_names_left hname)] at hd
      obtain ⟨before, hbefore, rfl⟩ := Option.map_eq_some_iff.1 hd
      rcases nftAction_cases acc s id with ha | ⟨n, info, hf, hi, ha⟩ | ⟨n, ha⟩
      · rw [ha] at hbefore
        cases hbefore
      · rw [ha] at hbefore
        obtain rfl := Option.some.inj hbefore
        exact h.hasType_of_creation ht hf hi
      · rw [ha] at hbefore
        obtain ⟨old, hold, rfl⟩ := Option.map_eq_some_iff.1 hbefore
        exact h.hasType_of_update n ht hold
  cases hwritten with
  | token hid hnonce => exact .token hid hnonce
  | member c hc hname htype =>
    refine .member c hc hname ?_
    rw [htype, Store.collectionType, hget, h.typeText_writtenOn hname]

end Members

end TokenWrites

open TokenWrites

/-- A save keeps the types of non-fungible tokens those of their collections, whatever it fails to write. -/
theorem Indexer.haveTypes_savedPartly {ix : Indexer} {block : Block} (h : s.Sound events) (ht : HaveTypes events s)
    (hn : NamesApart (ix.deltas block ++ events)) (down : List String) :
    HaveTypes (ix.deltas block ++ events) (ix.savedPartly block down s) := by
  rcases get?_savedPartly_tokens (fits h hn) down with ⟨-, hsame⟩ | ⟨-, hget⟩
  · exact ht.mono hsame _
  · exact (fits h hn).haveTypes_writtenOn ht hget

theorem Run.haveTypes (h : Run events s) (hn : NamesApart events) : HaveTypes events s := by
  induction h with
  | start n => exact nofun
  | save ix down hrun hb ih =>
    exact Indexer.haveTypes_savedPartly (hrun.sound hn.of_append) (ih hn.of_append) hn down
  | @revert events s ix header body down hrun ih =>
    rw [ix.revertBlock_eq_attempt]
    exact (ih hn).mono (Rollback.get?_attempt_of_not_mem ix.denomination header body down (by decide) s) []

/-- Every stored non-fungible token carries the type of its collection. Whatever was saved and reverted, and
whatever indices were unavailable meanwhile: a document with a nonce tells its collection, and has for a type the
text that the stored collection has for one, or no type if there is no such collection or its type is no text. -/
theorem Run.get?_type_of_nonce (hrun : Run events s) (hn : NamesApart events)
    (hd : s.get? Index.tokens id = some doc) (hnonce : (doc.get? "nonce").isSome = true) :
    ∃ c, doc.get? "token" = some (.str c) ∧ doc.get? "type" = (s.collectionType c).map Value.str := by
  cases hrun.haveTypes hn id doc hd with
  | token _ hnone =>
    rw [hnone] at hnonce
    cases hnonce
  | member c hc _ htype => exact ⟨c, get?_token_of_memberOf? hc, htype⟩

/-- A block creates a token and then issues its collection; the next block gives the collection another type, but
tokens are unavailable when it is saved; and the first is reverted. -/
theorem Run.get?_type_of_nonce_issued :
    let ix : Indexer := {}
    let create : Event :=
      { address := [1], identifier := "DCDTNFTCreate", topics := [[67], [1], [1], DigitalToken.encode {}] }
    let issue (type : UInt8) : Event :=
      { address := [1], identifier := "issueNonFungible", topics := [[67], [67], [67], [type]] }
    let first : Block := { header := { hash := [1] }, pool := { logs := [{ events := [create, issue 78] }] } }
    let second : Block := { header := { hash := [2] }, pool := { logs := [{ events := [issue 83] }] } }
    let created := (ix.saveBlock first ((Store.withPageSize 10).withUnavailable [])).2.2.withUnavailable []
    let failed := (ix.saveBlock second (created.withUnavailable [Index.tokens])).2.2.withUnavailable []
    let s := (ix.revertBlock first.header first.body (failed.withUnavailable [])).2.2.withUnavailable []
    Run (ix.deltas second ++ (ix.deltas first ++ [])) s ∧ NamesApart (ix.deltas second ++ (ix.deltas first ++ [])) ∧
      ∃ doc, s.get? Index.tokens "C-01" = some doc ∧ (doc.get? "nonce").isSome = true ∧
        ∃ c, doc.get? "token" = some (.str c) ∧ doc.get? "type" = (s.collectionType c).map Value.str := by
  intro ix create issue first second created failed s
  have hfirst : first.Ordered := ⟨List.Pairwise.nil, List.Pairwise.nil⟩
  have hsecond : second.Ordered := ⟨List.Pairwise.nil, List.Pairwise.nil⟩
  have hcreated : Run (ix.deltas first ++ []) created := .save ix [] (.start 10) hfirst
  have hfailed : Run (ix.deltas second ++ (ix.deltas first ++ [])) failed := .save ix [Index.tokens] hcreated hsecond
  have hrun : Run (ix.deltas second ++ (ix.deltas first ++ [])) s := .revert ix first.header first.body [] hfailed
  have hnames : NamesApart (ix.deltas second ++ (ix.deltas first ++ [])) := by decide +kernel
  have hsaved : created = ix.savedPartly first [] (Store.withPageSize 10) := ix.saveBlock_eq_savedPartly first [] _
  have hagain : failed = ix.savedPartly second [Index.tokens] created := ix.saveBlock_eq_savedPartly second _ _
  have hreverted : s = Session.attempt (Rollback.revertBlock ix.denomination first.header first.body) [] failed :=
    ix.revertBlock_eq_attempt first.header first.body [] failed
  -- from here on the equations tell all about the three stores
  clear_value s failed created
  have hkept : s.get? Index.tokens "C-01" = failed.get? Index.tokens "C-01" := by
    rw [hreverted]
    exact Rollback.get?_attempt_of_not_mem _ _ _ [] (by decide) failed "C-01"
  have hstayed : failed.get? Index.tokens "C-01" = created.get? Index.tokens "C-01" := by
    rw [hagain]
    rcases Indexer.get?_savedPartly (Indexer.fits (hcreated.sound hnames.of_append) hnames) [Index.tokens] with
      ⟨-, hsame⟩ | hget
    · rw [hsame]
    · rw [hget, if_pos (List.mem_singleton_self _)]
  have hwritten : created.get? Index.tokens "C-01" =
      writtenOn (ix.accumulate first) (Store.withPageSize 10) "C-01" := by
    rw [hsaved]
    rcases Indexer.get?_savedPartly (Indexer.fits (Store.sound_withPageSize 10) hnames.of_append) [] with
      ⟨hdown, -⟩ | hget
    · cases hdown
    · rw [hget, if_neg List.not_mem_nil, Indexer.savedAt, if_pos rfl]
  have hnonce : ((writtenOn (ix.accumulate first) (Store.withPageSize 10) "C-01").bind (·.get? "nonce")).isSome =
      true := by decide +kernel
  rw [← hwritten, ← hstayed, ← hkept] at hnonce
  cases hd : s.get? Index.tokens "C-01" with
  | none =>
    rw [hd] at hnonce
    cases hnonce
  | some doc =>
    rw [hd] at hnonce
    exact ⟨hrun, hnames, doc, rfl, hnonce, hrun.get?_type_of_nonce hnames hd hnonce⟩

end ChainIndex
