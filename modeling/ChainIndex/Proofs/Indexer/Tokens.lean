import ChainIndex.Proofs.Event.Names
import ChainIndex.Proofs.Indexer.TokenWrites
import ChainIndex.Proofs.Token.Identifier

/-!
The token writes of a block made twice. The first time they leave the fields of the collections that the
look-ups ask for, and give the stored tokens their types, so the second time the look-ups lead to the same
writes, no token takes a new type, and every document stays as it is.
-/
namespace ChainIndex

variable {acc : BlockAccumulators} {events earlier : List Delta} {s t : Store} {id c type key : String}
  {doc : Value} {ms : List Mutation}

section Documents

/-- A document of the tokens that events name: of a token or collection, or of a non-fungible token, and
then it tells the collection. -/
structure TokenDocument (events : List Delta) (id : String) (doc : Value) : Prop where
  isDocument : doc.IsDocument
  named : (id ∈ events.flatMap Delta.tokenNames ∧ doc.get? "nonce" = none) ∨
    (id ∈ events.flatMap Delta.nftNames ∧
      ∃ c nonce, id = nftIdentifier c nonce ∧ doc.get? "token" = some (.str c))

def TokenDocuments (events : List Delta) (s : Store) : Prop :=
  ∀ id doc, s.get? Index.tokens id = some doc → TokenDocument events id doc

theorem TokenDocument.mono (h : TokenDocument events id doc) {more : List Delta} (hm : events ⊆ more) :
    TokenDocument more id doc :=
  ⟨h.isDocument, h.named.imp (.imp_left (Delta.mem_names_of_subset hm)) (.imp_left (Delta.mem_names_of_subset hm))⟩

/-- Changes of other fields leave it such a document. -/
theorem TokenDocument.applyAll (h : TokenDocument events id doc) (hms : ∀ m ∈ ms, m.Ordered)
    (hn : ∀ m ∈ ms, m.Avoids "nonce") (ht : ∀ m ∈ ms, m.Avoids "token") :
    TokenDocument events id (Mutation.applyAll ms doc) := by
  refine ⟨Mutation.isDocument_applyAll hms h.isDocument, ?_⟩
  rw [Mutation.get?_applyAll_of_avoids hn, Mutation.get?_applyAll_of_avoids ht]
  exact h.named

/-- Events that come again bring no new names. -/
theorem NamesApart.again (hn : NamesApart (events ++ earlier)) : NamesApart (events ++ (events ++ earlier)) :=
  hn.mono (List.append_subset.2 ⟨List.subset_append_left events earlier, List.Subset.refl _⟩)

/-- The document of a token or collection has no nonce. -/
theorem TokenDocument.no_nonce (h : TokenDocument earlier id doc) (hn : NamesApart (events ++ earlier))
    (hid : id ∈ (events ++ earlier).flatMap Delta.tokenNames) : doc.get? "nonce" = none := by
  rcases h.named with ⟨-, hnone⟩ | ⟨hnft, -⟩
  · exact hnone
  · exact absurd (Delta.mem_names_right hnft) (hn id hid)

/-- The document of a non-fungible token tells its collection. -/
theorem TokenDocument.token {nonce : UInt64} (h : TokenDocument earlier (nftIdentifier c nonce) doc)
    (hn : NamesApart (events ++ earlier)) (hid : nftIdentifier c nonce ∈ events.flatMap Delta.nftNames) :
    doc.get? "token" = some (.str c) := by
  rcases h.named with ⟨hname, -⟩ | ⟨-, other, n, hid', htoken⟩
  · exact absurd (Delta.mem_names_left hid) (hn _ (Delta.mem_names_right hname))
  · rw [htoken, (nftIdentifier_inj hid').1]

end Documents

section Fields

def WriteAction.Keeps (action : WriteAction) (key : String) : Prop :=
  ∀ stored, Value.under (action.apply stored) key = Value.under stored key

theorem WriteAction.keeps_upsert (h : ∀ m ∈ ms, m.Avoids key) : (upsert ms).Keeps key := by
  intro stored
  rw [apply, Value.under_some, Mutation.get?_applyAll_of_avoids h]
  cases stored <;> rfl

theorem WriteAction.keeps_update (h : ∀ m ∈ ms, m.Avoids key) : (update ms).Keeps key := by
  intro stored
  cases stored with
  | none => rfl
  | some doc => exact Mutation.get?_applyAll_of_avoids h doc

/-- The fields of a collection that a document tells are in three of its own. -/
theorem CollectionFields.bind_ofDocument?_congr {stored other : Option Value}
    (h : ∀ key ∈ ["type", "ticker", "numDecimals"], Value.under other key = Value.under stored key) :
    other.bind ofDocument? = stored.bind ofDocument? := by
  have huntyped (doc : Value) (ht : doc.get? "type" = none) : ofDocument? doc = none := by
    unfold ofDocument?
    rw [ht]
    rfl
  have htype := h "type" (by simp)
  cases stored with
  | none =>
    cases other with
    | none => rfl
    | some doc => exact huntyped doc htype
  | some doc =>
    cases other with
    | none => exact (huntyped doc htype.symm).symm
    | some new => exact ofDocument?_congr h

end Fields

namespace TokenWrites

section Token

/-- What the block does to the document of a token or collection; nothing at all is an empty update. -/
def tokenAction (acc : BlockAccumulators) (id : String) : WriteAction := (tokenAction? acc id).getD (.update [])

theorem applyAll_tokenAction? (acc : BlockAccumulators) (id : String) (stored : Option Value) :
    WriteAction.applyAll (tokenAction? acc id).toList stored = (tokenAction acc id).apply stored := by
  unfold tokenAction
  cases tokenAction? acc id with
  | some action => rfl
  | none => exact Option.map_id'.symm

/-- A token is written by one upsert or update of all its changes, or not at all. -/
theorem tokenAction_cases (acc : BlockAccumulators) (id : String) :
    tokenAction acc id = .update [] ∨ ∃ tok, acc.tokens.find? id = some tok ∧
      (tokenAction acc id = .upsert (tok.allMutations id) ∨ tokenAction acc id = .update (tok.allMutations id)) := by
  unfold tokenAction tokenAction?
  cases hf : acc.tokens.find? id with
  | none => exact .inl rfl
  | some tok =>
    cases hw : tok.write? id with
    | none =>
      refine .inl ?_
      rw [Option.bind_some, hw]
      rfl
    | some item =>
      refine .inr ⟨tok, rfl, ?_⟩
      rw [Option.bind_some, hw]
      exact (TokenAccumulator.write?_cases hw).2

theorem settles_tokenAction (hg : acc.Gathers events) (id : String) :
    (tokenAction acc id).Settles ∧ (tokenAction acc id).Ordered := by
  rcases tokenAction_cases acc id with h | ⟨tok, hf, h⟩
  · rw [h]
    exact ⟨fun _ _ => rfl, nofun⟩
  · have hordered := (hg.tokens id tok hf).1
    rcases h with h | h
    · rw [h]
      exact ⟨hordered.settle id, hordered.allMutations id⟩
    · rw [h]
      exact ⟨hordered.settle id, hordered.allMutations id⟩

theorem keeps_tokenAction {key : String}
    (h : ∀ tok, acc.tokens.find? id = some tok → ∀ m ∈ tok.allMutations id, m.Avoids key) :
    (tokenAction acc id).Keeps key := by
  rcases tokenAction_cases acc id with ha | ⟨tok, hf, ha | ha⟩
  · rw [ha]
    exact WriteAction.keeps_update nofun
  · rw [ha]
    exact WriteAction.keeps_upsert (h tok hf)
  · rw [ha]
    exact WriteAction.keeps_update (h tok hf)

/-- The block does to a field what the changes of the token do, also where a pause alone makes no document. -/
theorem under_tokenAction (hk : key ≠ "paused") (acc : BlockAccumulators) (id : String) (stored : Option Value) :
    Value.under ((tokenAction acc id).apply stored) key =
      (Mutation.applyAll ((acc.ofToken id).allMutations id) (stored.getD .empty)).get? key := by
  by_cases hms : (acc.ofToken id).mutations id = []
  · have hpause : ∀ m ∈ (acc.ofToken id).allMutations id, m.Avoids key := by
      intro m hm
      rw [TokenAccumulator.allMutations, hms, List.nil_append] at hm
      exact (TokenAccumulator.simple_pauseMutations m hm).2 key hk
    have hkeeps : (tokenAction acc id).Keeps key := keeps_tokenAction fun tok hf => by
      rw [BlockAccumulators.ofToken, hf] at hpause
      exact hpause
    rw [Mutation.get?_applyAll_of_avoids hpause, hkeeps stored, Value.get?_getD_empty]
  · cases hf : acc.tokens.find? id with
    | none =>
      rw [BlockAccumulators.ofToken, hf] at hms
      exact absurd rfl hms
    | some tok =>
      have htok : acc.ofToken id = tok := by rw [BlockAccumulators.ofToken, hf]; rfl
      have haction : tokenAction acc id = .upsert (tok.allMutations id) := by
        rw [tokenAction, tokenAction?, hf, Option.bind_some, TokenAccumulator.write?_of_mutations (htok ▸ hms)]
        rfl
      rw [haction, htok]
      rfl

/-- A stored document has all changes of the token, a pause among them. -/
theorem tokenAction_apply_some (acc : BlockAccumulators) (id : String) (doc : Value) :
    (tokenAction acc id).apply (some doc) = some (Mutation.applyAll ((acc.ofToken id).allMutations id) doc) := by
  unfold tokenAction tokenAction? BlockAccumulators.ofToken
  cases acc.tokens.find? id with
  | none => rfl
  | some tok =>
    rw [Option.bind_some, Option.getD_some]
    cases hw : tok.write? id with
    | none =>
      rw [TokenAccumulator.allMutations_of_write?_eq_none hw]
      rfl
    | some item =>
      rw [Option.map_some, Option.getD_some]
      rcases (TokenAccumulator.write?_cases hw).2 with h | h
      · rw [h]
        rfl
      · rw [h]
        rfl

theorem keeps_tokenAction_nonce (acc : BlockAccumulators) (id : String) : (tokenAction acc id).Keeps "nonce" :=
  keeps_tokenAction fun _ _ => TokenAccumulator.avoids_allMutations (by decide)

/-- What a block does not tell of a collection, it does not change. -/
theorem keeps_tokenAction_of_untold (h : fromBlock? acc id = none) {key : String}
    (hk : key ∈ ["type", "ticker", "numDecimals"]) : (tokenAction acc id).Keeps key := by
  refine keeps_tokenAction fun tok hf => TokenAccumulator.avoids_allMutations_of_untyped ?_ hk
  rw [fromBlock?, hf, Option.bind_some, CollectionFields.ofAccumulator?, Option.map_eq_none_iff] at h
  exact h

end Token

section Nft

/-- What the block does to the document of a non-fungible token; nothing at all is an empty update. -/
def nftAction (acc : BlockAccumulators) (s : Store) (id : String) : WriteAction :=
  (nftAction? acc s id).getD (.update [])

theorem applyAll_nftAction? (acc : BlockAccumulators) (s : Store) (id : String) (stored : Option Value) :
    WriteAction.applyAll (nftAction? acc s id).toList stored = (nftAction acc s id).apply stored := by
  unfold nftAction
  cases nftAction? acc s id with
  | some action => rfl
  | none => exact Option.map_id'.symm

/-- It removes the document, creates it unless it is there, or updates it. -/
theorem nftAction_cases (acc : BlockAccumulators) (s : Store) (id : String) : nftAction acc s id = .delete ∨
    (∃ n info, acc.nfts.find? id = some n ∧ n.created = some info ∧ nftAction acc s id =
      .upsert (n.creationMutations info (n.collection?.bind (collectionIn acc s)))) ∨
    ∃ n : NftAccumulator, nftAction acc s id = .update n.updateMutations := by
  have hnothing : WriteAction.update [] = .update ({} : NftAccumulator).updateMutations := rfl
  unfold nftAction nftAction?
  cases hf : acc.nfts.find? id with
  | none => exact .inr (.inr ⟨{}, hnothing⟩)
  | some n =>
    rw [Option.bind_some]
    cases hw : n.write? id (n.collection?.bind (collectionIn acc s)) with
    | none => exact .inr (.inr ⟨{}, hnothing⟩)
    | some item =>
      rcases (NftAccumulator.write?_cases hw).2 with h | ⟨info, hi, h⟩ | h
      · exact .inl h
      · exact .inr (.inl ⟨n, info, rfl, hi, h⟩)
      · exact .inr (.inr ⟨n, h⟩)

end Nft

section Retyped

variable {new : Option String}

theorem avoids_retypings {key : String} (hk : "type" ≠ key) : ∀ m ∈ new.toList.map retyping, m.Avoids key := by
  intro m hm
  obtain ⟨type, -, rfl⟩ := List.mem_map.1 hm
  exact fun doc => by rw [get?_retyping, if_neg hk]

theorem ordered_retypings : ∀ m ∈ new.toList.map retyping, m.Ordered := by
  intro m hm
  obtain ⟨type, -, rfl⟩ := List.mem_map.1 hm
  exact (simple_retyping type).ordered

theorem get?_retypings_type (doc : Value) : (Mutation.applyAll (new.toList.map retyping) doc).get? "type" =
    (new.map Value.str).or (doc.get? "type") := by
  cases new with
  | none => rfl
  | some type =>
    rw [Option.toList_some, List.map_singleton, Mutation.applyAll_cons, Mutation.applyAll_nil, get?_retyping]
    rfl

/-- A stored document takes the new type of its collection, if there is one. -/
theorem applyAll_retypes (new : Option String) (stored : Option Value) :
    WriteAction.applyAll (new.map fun type => WriteAction.update [retyping type]).toList stored =
      stored.map (Mutation.applyAll (new.toList.map retyping)) := by
  cases new <;> cases stored <;> rfl

/-- Changes after which a document took a new type leave it as it is, if they leave it that type. -/
theorem applyAll_of_retyped (hs : Mutation.Settle (ms ++ new.toList.map retyping)) (hms : ∀ m ∈ ms, m.Ordered)
    (hd : doc.IsDocument)
    (ht : ∀ type, new = some type → (Mutation.applyAll ms
      (Mutation.applyAll (ms ++ new.toList.map retyping) doc)).get? "type" = some (.str type)) :
    Mutation.applyAll ms (Mutation.applyAll (ms ++ new.toList.map retyping) doc) =
      Mutation.applyAll (ms ++ new.toList.map retyping) doc := by
  have hordered : ∀ m ∈ ms ++ new.toList.map retyping, m.Ordered := fun m hm =>
    (List.mem_append.1 hm).elim (hms m) (ordered_retypings m)
  have htwice := hs doc hd
  have honce := Mutation.isDocument_applyAll hordered hd
  generalize Mutation.applyAll (ms ++ new.toList.map retyping) doc = once at htwice honce ht ⊢
  rw [Mutation.applyAll_append] at htwice
  cases new with
  | none => exact htwice
  | some type => exact (retyping_eq_self (Mutation.isDocument_applyAll hms honce) (ht type rfl)).symm.trans htwice

end Retyped

section Names

/-- A block whose accumulators hold no more than its events say, and a store of documents that earlier
events name, with names apart. -/
structure Fits (acc : BlockAccumulators) (events earlier : List Delta) (s : Store) : Prop where
  gathers : acc.Gathers events
  usable : s.Usable
  documents : TokenDocuments earlier s
  apart : NamesApart (events ++ earlier)

def retype? (acc : BlockAccumulators) (s : Store) (id : String) : Option String :=
  (s.get? Index.tokens id).bind (newType? acc)

variable (h : Fits acc events earlier s)

include h

theorem Fits.retype?_of_token (hid : id ∈ (events ++ earlier).flatMap Delta.tokenNames) : retype? acc s id = none := by
  unfold retype?
  cases hd : s.get? Index.tokens id with
  | none => rfl
  | some doc => exact newType?_of_no_nonce ((h.documents id doc hd).no_nonce h.apart hid)

theorem Fits.find?_nfts_of_token (hid : id ∈ (events ++ earlier).flatMap Delta.tokenNames) :
    acc.nfts.find? id = none := by
  cases hf : acc.nfts.find? id with
  | none => rfl
  | some n => exact absurd (Delta.mem_names_left (h.gathers.nfts id n hf).2) (h.apart id hid)

/-- The document of a token or collection has no other write. -/
theorem Fits.writtenOn_token (hid : id ∈ (events ++ earlier).flatMap Delta.tokenNames) :
    writtenOn acc s id = (tokenAction acc id).apply (s.get? Index.tokens id) := by
  have hnft : nftAction? acc s id = none := by
    rw [nftAction?, h.find?_nfts_of_token hid]
    rfl
  have hnew := h.retype?_of_token hid
  unfold retype? at hnew
  rw [writtenOn, actionsOf_itemsOn h.gathers h.usable, hnft, hnew, ← applyAll_tokenAction?]
  simp

theorem Fits.writtenOn_nft (hid : id ∉ events.flatMap Delta.tokenNames) :
    writtenOn acc s id = ((nftAction acc s id).apply (s.get? Index.tokens id)).map
      (Mutation.applyAll ((retype? acc s id).toList.map retyping)) := by
  have htoken : tokenAction? acc id = none := by
    cases hf : acc.tokens.find? id with
    | none =>
      rw [tokenAction?, hf]
      rfl
    | some tok => exact absurd (h.gathers.tokens id tok hf).2 hid
  rw [writtenOn, actionsOf_itemsOn h.gathers h.usable, htoken, ← applyAll_nftAction?, ← applyAll_retypes]
  exact List.foldl_append

theorem Fits.isDocument {doc : Value} (hd : s.get? Index.tokens id = some doc) : doc.IsDocument :=
  (h.documents id doc hd).isDocument

/-- The collections that the block needs have the fields that they had. -/
theorem Fits.collectionIn_eq (hget : ∀ id, t.get? Index.tokens id = writtenOn acc s id)
    (hc : c ∈ events.flatMap Delta.tokenNames) : collectionIn acc t c = collectionIn acc s c := by
  unfold collectionIn
  cases hb : fromBlock? acc c with
  | some fields => rfl
  | none =>
    rw [Option.none_or, Option.none_or, hget, h.writtenOn_token (Delta.mem_names_left hc)]
    exact CollectionFields.bind_ofDocument?_congr fun key hk => keeps_tokenAction_of_untold hb hk _

/-- The write of a non-fungible token is the same when the block is saved again. -/
theorem Fits.nftAction_eq (hget : ∀ id, t.get? Index.tokens id = writtenOn acc s id) (id : String) :
    nftAction acc t id = nftAction acc s id := by
  unfold nftAction nftAction?
  cases hf : acc.nfts.find? id with
  | none => rfl
  | some n =>
    have hcollection : n.collection?.bind (collectionIn acc t) = n.collection?.bind (collectionIn acc s) := by
      cases hc : n.collection? with
      | none => rfl
      | some c =>
        rw [Option.bind_some, Option.bind_some]
        exact h.collectionIn_eq hget ((h.gathers.nfts id n hf).1.collection hc)
    rw [Option.bind_some, Option.bind_some, hcollection]

end Names

section Twice

variable (h : Fits acc events earlier s)

include h

/-- A token that the block creates gets the type that the block gives its collection. -/
theorem Fits.get?_type_of_creation {n : NftAccumulator} {info : NftInfo} (hi : n.created = some info)
    (ht : Dict.find? (newTypes acc) info.token = some type) (doc : Value) :
    (Mutation.applyAll (n.creationMutations info (n.collection?.bind (collectionIn acc s))) doc).get? "type" = some (.str type) := by
  rw [find?_newTypes h.gathers, Option.bind_eq_some_iff] at ht
  obtain ⟨tok, htok, htype⟩ := ht
  obtain ⟨static, hstatic, rfl⟩ := Option.map_eq_some_iff.1 htype
  have hfrom : fromBlock? acc info.token = some ⟨static.type, static.ticker, static.decimals⟩ := by
    rw [fromBlock?, htok, Option.bind_some, CollectionFields.ofAccumulator?, hstatic]
    rfl
  rw [NftAccumulator.get?_creationMutations_type, NftAccumulator.collection?_of_created hi, Option.bind_some,
    collectionIn, hfrom]
  rfl

/-- A token that the block creates, or that is there already, is of the collection that its name tells. -/
theorem Fits.get?_token_of_creation {n : NftAccumulator} {info : NftInfo} (hf : acc.nfts.find? id = some n)
    (hi : n.created = some info) :
    (Mutation.applyAll (n.creationMutations info (n.collection?.bind (collectionIn acc s)))
      ((s.get? Index.tokens id).getD .empty)).get? "token" = some (.str info.token) := by
  obtain ⟨hnamed, hid⟩ := h.gathers.nfts id n hf
  obtain ⟨hname, -⟩ := hnamed.created info hi
  rw [NftAccumulator.creationMutations, Mutation.applyAll_cons,
    Mutation.get?_applyAll_of_avoids (NftAccumulator.avoids_laterMutations (by decide)), Mutation.apply,
    Value.get?_mergeAbsent, NftAccumulator.get?_creation_token]
  cases hd : s.get? Index.tokens id with
  | none => rfl
  | some doc =>
    subst hname
    rw [Option.getD_some, (h.documents _ doc hd).token h.apart hid]
    rfl

/-- A stored token that the block creates again takes no type but that of its collection. -/
theorem Fits.find?_newTypes_of_retype? {n : NftAccumulator} {info : NftInfo} (hf : acc.nfts.find? id = some n)
    (hi : n.created = some info) (hnew : retype? acc s id = some type) :
    Dict.find? (newTypes acc) info.token = some type := by
  obtain ⟨hnamed, hid⟩ := h.gathers.nfts id n hf
  obtain ⟨hname, -⟩ := hnamed.created info hi
  subst hname
  obtain ⟨doc, hd, hdoc⟩ := Option.bind_eq_some_iff.1 hnew
  obtain ⟨c, hc, ht⟩ := exists_memberOf?_of_newType? hdoc
  have htoken := (h.documents _ doc hd).token h.apart hid
  rw [get?_token_of_memberOf? hc] at htoken
  rw [← Value.str.inj (Option.some.inj htoken)]
  exact ht

/-- What the block makes of documents are such documents again. -/
theorem Fits.tokenDocument_writtenOn (hd : writtenOn acc s id = some doc) :
    TokenDocument (events ++ earlier) id doc := by
  have hstored : ∀ doc, s.get? Index.tokens id = some doc → doc.IsDocument := fun doc hd => h.isDocument hd
  by_cases hid : id ∈ events.flatMap Delta.tokenNames
  · rw [h.writtenOn_token (Delta.mem_names_left hid)] at hd
    have hnonce := keeps_tokenAction_nonce acc id (s.get? Index.tokens id)
    rw [hd] at hnonce
    refine ⟨(settles_tokenAction h.gathers id).2.isDocument_apply hstored hd,
      .inl ⟨Delta.mem_names_left hid, hnonce.trans ?_⟩⟩
    cases hs : s.get? Index.tokens id with
    | none => rfl
    | some old => exact (h.documents id old hs).no_nonce h.apart (Delta.mem_names_left hid)
  · rw [h.writtenOn_nft hid] at hd
    obtain ⟨before, hb, rfl⟩ := Option.map_eq_some_iff.1 hd
    have hbefore : TokenDocument (events ++ earlier) id before := by
      rcases nftAction_cases acc s id with ha | ⟨n, info, hf, hi, ha⟩ | ⟨n, ha⟩
      · rw [ha] at hb
        cases hb
      · obtain ⟨hnamed, hnft⟩ := h.gathers.nfts id n hf
        rw [ha] at hb
        have hordered : (WriteAction.upsert (n.creationMutations info (n.collection?.bind (collectionIn acc s)))).Ordered :=
          n.ordered_creationMutations info _
        refine ⟨hordered.isDocument_apply hstored hb, .inr ⟨Delta.mem_names_left hnft, info.token, info.nonce,
          (hnamed.created info hi).1.symm, ?_⟩⟩
        obtain rfl := Option.some.inj hb
        exact h.get?_token_of_creation hf hi
      · rw [ha] at hb
        obtain ⟨old, ho, rfl⟩ := Option.map_eq_some_iff.1 hb
        have hold := (h.documents id old ho).mono (List.subset_append_right events earlier)
        exact hold.applyAll (fun m hm => (NftAccumulator.nested_updateMutations m hm).ordered)
          (NftAccumulator.avoids_updateMutations (by decide)) (NftAccumulator.avoids_updateMutations (by decide))
    exact hbefore.applyAll ordered_retypings (avoids_retypings (by decide)) (avoids_retypings (by decide))

theorem Fits.after (ht : t.Usable) (hget : ∀ id, t.get? Index.tokens id = writtenOn acc s id) :
    Fits acc events (events ++ earlier) t :=
  ⟨h.gathers, ht, fun _ _ hd => h.tokenDocument_writtenOn ((hget _).symm.trans hd), h.apart.again⟩

/-- A created token has the type of its collection, so it takes no other. -/
theorem Fits.newType?_created {n : NftAccumulator} {info : NftInfo} (hf : acc.nfts.find? id = some n)
    (hi : n.created = some info) :
    newType? acc (Mutation.applyAll (n.creationMutations info (n.collection?.bind (collectionIn acc s)) ++
      (retype? acc s id).toList.map retyping) ((s.get? Index.tokens id).getD .empty)) = none := by
  refine newType?_eq_none_iff.2 fun c type hc ht => ?_
  have htoken := get?_token_of_memberOf? hc
  rw [Mutation.applyAll_append, Mutation.get?_applyAll_of_avoids (avoids_retypings (by decide)),
    h.get?_token_of_creation hf hi] at htoken
  obtain rfl := Value.str.inj (Option.some.inj htoken)
  rw [Mutation.applyAll_append, get?_retypings_type, h.get?_type_of_creation hi ht]
  cases hnew : retype? acc s id with
  | none => rfl
  | some other =>
    have hother := h.find?_newTypes_of_retype? hf hi hnew
    rw [Option.some.inj (ht.symm.trans hother)]
    rfl

omit h in
/-- An updated token that took the type of its collection has it. -/
theorem newType?_updated (acc : BlockAccumulators) (n : NftAccumulator) (doc : Value) :
    newType? acc (Mutation.applyAll (n.updateMutations ++ (newType? acc doc).toList.map retyping) doc) = none := by
  have hkeep {key : String} (hk : key ∉ [NftMetadata.field, "frozen"]) :
      (Mutation.applyAll n.updateMutations doc).get? key = doc.get? key :=
    Mutation.get?_applyAll_of_avoids (NftAccumulator.avoids_updateMutations hk) doc
  have hmember : memberOf? (Mutation.applyAll (n.updateMutations ++
      (newType? acc doc).toList.map retyping) doc) = memberOf? doc := by
    rw [Mutation.applyAll_append]
    refine memberOf?_congr ?_ ?_
    · rw [Mutation.get?_applyAll_of_avoids (avoids_retypings (by decide)), hkeep (by decide)]
    · rw [Mutation.get?_applyAll_of_avoids (avoids_retypings (by decide)), hkeep (by decide)]
  refine newType?_eq_none_iff.2 fun c type hc ht => ?_
  rw [hmember] at hc
  rw [Mutation.applyAll_append, get?_retypings_type, hkeep (by decide)]
  cases hnew : newType? acc doc with
  | none => exact newType?_eq_none_iff.1 hnew c type hc ht
  | some other =>
    obtain ⟨known, hknown, hother⟩ := exists_memberOf?_of_newType? hnew
    obtain rfl := Option.some.inj (hknown.symm.trans hc)
    rw [Option.some.inj (ht.symm.trans hother)]
    rfl

/-- A non-fungible token that the block creates, updates or removes is left as it is the second time. -/
theorem Fits.writtenOn_nft_twice (ht : t.Usable) (hget : ∀ id, t.get? Index.tokens id = writtenOn acc s id)
    (hid : id ∉ events.flatMap Delta.tokenNames) : writtenOn acc t id = writtenOn acc s id := by
  have hstored := hget id
  have hnew : retype? acc t id = (writtenOn acc s id).bind (newType? acc) := by rw [retype?, hget]
  rw [(h.after ht hget).writtenOn_nft hid, h.nftAction_eq hget, hstored, hnew]
  rw [h.writtenOn_nft hid] at *
  rcases nftAction_cases acc s id with ha | ⟨n, info, hf, hi, ha⟩ | ⟨n, ha⟩
  · rw [ha]
    rfl
  · have hbase : ((s.get? Index.tokens id).getD .empty).IsDocument :=
      Value.isDocument_getD fun doc hd => h.isDocument hd
    have hcreated := h.newType?_created hf hi
    have hsettle := applyAll_of_retyped (NftAccumulator.settle_creation info n _ (retype? acc s id))
      (n.ordered_creationMutations info (n.collection?.bind (collectionIn acc s))) hbase
      fun type hnew => h.get?_type_of_creation hi (h.find?_newTypes_of_retype? hf hi hnew) _
    rw [Mutation.applyAll_append] at hcreated hsettle
    simp only [ha, WriteAction.apply, Option.map_some, Option.getD_some, Option.bind_some, hcreated, hsettle]
    rfl
  · rw [ha]
    cases hd : s.get? Index.tokens id with
    | none => rfl
    | some doc =>
      have hretype : retype? acc s id = newType? acc doc := by
        rw [retype?, hd]
        rfl
      have hupdated := newType?_updated acc n doc
      have hsettle := applyAll_of_retyped (NftAccumulator.settle_update n (newType? acc doc))
        (fun m hm => (NftAccumulator.nested_updateMutations m hm).ordered) (h.isDocument hd) fun type hnew => by
          rw [Mutation.get?_applyAll_of_avoids (NftAccumulator.avoids_updateMutations (by decide)),
            Mutation.applyAll_append, get?_retypings_type, hnew]
          rfl
      rw [Mutation.applyAll_append] at hupdated hsettle
      simp only [hretype, WriteAction.apply, Option.map_some, Option.bind_some, hupdated, hsettle]
      rfl

/-- A block's token writes, made again, leave every document as it is. -/
theorem Fits.writtenOn_twice (ht : t.Usable) (hget : ∀ id, t.get? Index.tokens id = writtenOn acc s id)
    (id : String) : writtenOn acc t id = writtenOn acc s id := by
  by_cases hid : id ∈ events.flatMap Delta.tokenNames
  · have hdocuments : ∀ doc, s.get? Index.tokens id = some doc → doc.IsDocument := fun doc hd => h.isDocument hd
    have hnamed : id ∈ (events ++ earlier).flatMap Delta.tokenNames := Delta.mem_names_left hid
    rw [(h.after ht hget).writtenOn_token (Delta.mem_names_right hnamed), hget, h.writtenOn_token hnamed]
    exact (settles_tokenAction h.gathers id).1.apply_apply hdocuments
  · exact h.writtenOn_nft_twice ht hget hid

end Twice

end TokenWrites
end ChainIndex
