import ChainIndex.Proofs.Accumulator.Owners
import ChainIndex.Proofs.Indexer.Calls

/-!
Issuers and owners of stored tokens. A token that has an issuer keeps it, with the time of its issue, and its list of
owners only grows: whatever is saved and reverted, and whatever indices are unavailable meanwhile. A save that reaches
the tokens enters every owner that its events name, and the last transfer of a token tells who owns it.
-/
namespace ChainIndex

open TokenAccumulator (ownersIn ownerFields)

variable {acc : BlockAccumulators} {events earlier : List Delta} {s t : Store} {id key : String}
  {stored later last : Option Value}

namespace Value

structure KnowsOwners (stored : Option Value) : Prop where
  issued : (under stored "issuer").isSome → (under stored "timestamp").isSome
  distinct : Distinct (ownersIn stored)

structure Ownerless (stored : Option Value) : Prop where
  issuer : under stored "issuer" = none
  owners : ownersIn stored = []

structure OwnersGrow (stored later : Option Value) : Prop where
  issue : (under stored "issuer").isSome →
    under later "issuer" = under stored "issuer" ∧ under later "timestamp" = under stored "timestamp"
  owners : ownersIn stored <+: ownersIn later

theorem OwnersGrow.refl (stored : Option Value) : OwnersGrow stored stored :=
  ⟨fun _ => ⟨rfl, rfl⟩, List.prefix_refl _⟩

theorem OwnersGrow.trans (h : OwnersGrow stored later) (hl : OwnersGrow later last) : OwnersGrow stored last := by
  refine ⟨fun hs => ?_, h.owners.trans hl.owners⟩
  obtain ⟨hissuer, htime⟩ := h.issue hs
  obtain ⟨hissuer', htime'⟩ := hl.issue (hissuer ▸ hs)
  exact ⟨hissuer'.trans hissuer, htime'.trans htime⟩

theorem Ownerless.not_issued (h : Ownerless stored) : ¬(under stored "issuer").isSome := by
  rw [h.issuer]
  exact Bool.false_ne_true

theorem Ownerless.knowsOwners (h : Ownerless stored) : KnowsOwners stored := by
  refine ⟨fun hs => absurd hs h.not_issued, ?_⟩
  rw [h.owners]
  exact List.Pairwise.nil

theorem Ownerless.grow (h : Ownerless stored) (later : Option Value) : OwnersGrow stored later := by
  refine ⟨fun hs => absurd hs h.not_issued, ?_⟩
  rw [h.owners]
  exact List.nil_prefix

theorem ownerless_none : Ownerless none := ⟨rfl, rfl⟩

/-- Changes of other fields name no owners. -/
theorem Ownerless.congr (h : Ownerless stored) (hissuer : under later "issuer" = under stored "issuer")
    (howners : under later "ownersHistory" = under stored "ownersHistory") : Ownerless later := by
  refine ⟨hissuer.trans h.issuer, ?_⟩
  rw [ownersIn, howners]
  exact h.owners

end Value

namespace TokenWrites

section Token

/-- The owners after a block. -/
theorem ownersIn_tokenAction (acc : BlockAccumulators) (id : String) (stored : Option Value) :
    ownersIn ((tokenAction acc id).apply stored) =
      ((acc.ofToken id).ownersHistory.map OwnerData.toItem).foldl Value.addItem (ownersIn stored) := by
  have hstored : ownersIn (some (stored.getD .empty)) = ownersIn stored := by cases stored <;> rfl
  rw [← hstored, ← TokenAccumulator.ownersIn_allMutations id, ownersIn, under_tokenAction (by decide)]
  rfl

/-- What a block writes to a token tells of its owners in order. -/
theorem knowsOwners_tokenAction (ho : acc.Owned events) (h : Value.KnowsOwners stored) (id : String) :
    Value.KnowsOwners ((tokenAction acc id).apply stored) := by
  refine ⟨fun hs => ?_, ?_⟩
  · rw [under_tokenAction (by decide), TokenAccumulator.get?_allMutations_issuer] at hs
    rw [under_tokenAction (by decide), TokenAccumulator.get?_allMutations_timestamp]
    rw [Value.get?_getD_empty, Option.isSome_or, Bool.or_eq_true] at hs ⊢
    rcases hs with hs | hs
    · exact .inl (h.issued hs)
    · rw [Option.isSome_map] at hs
      obtain ⟨issuer, hi⟩ := Option.isSome_iff_exists.1 hs
      rw [hi, Option.bind_some, Option.isSome_map]
      exact .inr ((ho id).issued hs)
  · rw [ownersIn_tokenAction]
    exact h.distinct.foldl_addItem _

/-- What a block writes to a token takes no owner away. -/
theorem ownersGrow_tokenAction (h : Value.KnowsOwners stored) (acc : BlockAccumulators) (id : String) :
    Value.OwnersGrow stored ((tokenAction acc id).apply stored) := by
  refine ⟨fun hs => ⟨?_, ?_⟩, ?_⟩
  · rw [under_tokenAction (by decide), TokenAccumulator.get?_allMutations_issuer, Value.get?_getD_empty,
      Option.or_of_isSome hs]
  · rw [under_tokenAction (by decide), TokenAccumulator.get?_allMutations_timestamp, Value.get?_getD_empty,
      Option.or_of_isSome (h.issued hs)]
  · rw [ownersIn_tokenAction]
    exact Value.prefix_foldl_addItem _ _

end Token

section Nft

/-- The document of a non-fungible token names neither issuer nor owners. -/
theorem ownerless_nftAction (h : Value.Ownerless stored) (acc : BlockAccumulators) (s : Store) (id : String) :
    Value.Ownerless ((nftAction acc s id).apply stored) := by
  rcases nftAction_cases acc s id with ha | ⟨n, info, -, -, ha⟩ | ⟨n, ha⟩
  · rw [ha]
    exact Value.ownerless_none
  · have havoids {key : String} (hk : key ∈ ["issuer", "ownersHistory"]) :
        ∀ m ∈ n.creationMutations info (n.collection?.bind (collectionIn acc s)), m.Avoids key := by
      have hlater : key ∉ [NftMetadata.field, "frozen", "type", "ticker", "numDecimals"] := by
        simp only [List.mem_cons, List.not_mem_nil, or_false] at hk
        rcases hk with rfl | rfl <;> decide
      have hfields : key ∉ Dict.keys (NftAccumulator.creationFields info) := by
        simp only [List.mem_cons, List.not_mem_nil, or_false] at hk
        cases hd : info.data <;> rcases hk with rfl | rfl <;> simp [NftAccumulator.creationFields, hd, Dict.keys]
      exact List.forall_mem_cons.2
        ⟨Mutation.avoids_mergeIfAbsent hfields, NftAccumulator.avoids_laterMutations hlater⟩
    rw [ha]
    exact h.congr (WriteAction.keeps_upsert (havoids (by decide)) stored)
      (WriteAction.keeps_upsert (havoids (by decide)) stored)
  · rw [ha]
    exact h.congr (WriteAction.keeps_update (NftAccumulator.avoids_updateMutations (by decide)) stored)
      (WriteAction.keeps_update (NftAccumulator.avoids_updateMutations (by decide)) stored)

end Nft

section Stores

/-- What is stored of a token tells of its owners in order, and only of those that events name. -/
structure OwnerDocuments (events : List Delta) (s : Store) : Prop where
  documents : ∀ id, Value.KnowsOwners (s.get? Index.tokens id)
  others : ∀ id, id ∉ events.flatMap Delta.tokenNames → Value.Ownerless (s.get? Index.tokens id)

theorem ownerDocuments_withPageSize (n : Nat) : OwnerDocuments [] (Store.withPageSize n) :=
  ⟨fun _ => Value.ownerless_none.knowsOwners, fun _ _ => Value.ownerless_none⟩

/-- More events change nothing while the stored tokens stay. -/
theorem OwnerDocuments.mono (h : OwnerDocuments events s)
    (hsame : ∀ id, t.get? Index.tokens id = s.get? Index.tokens id) (more : List Delta) :
    OwnerDocuments (more ++ events) t ∧ ∀ id, Value.OwnersGrow (s.get? Index.tokens id) (t.get? Index.tokens id) := by
  refine ⟨⟨fun id => ?_, fun id hid => ?_⟩, fun id => ?_⟩
  · rw [hsame]
    exact h.documents id
  · rw [hsame]
    exact h.others id fun hn => hid (Delta.mem_names_right hn)
  · rw [hsame]
    exact Value.OwnersGrow.refl _

/-- A block keeps the stored tokens so, and takes nothing from any of them. -/
theorem Fits.ownerDocuments_writtenOn (h : Fits acc events earlier s) (ho : acc.Owned events)
    (hs : OwnerDocuments earlier s) (hget : ∀ id, t.get? Index.tokens id = writtenOn acc s id) :
    OwnerDocuments (events ++ earlier) t ∧
      ∀ id, Value.OwnersGrow (s.get? Index.tokens id) (t.get? Index.tokens id) := by
  have htoken (id : String) (hid : id ∈ (events ++ earlier).flatMap Delta.tokenNames) :
      t.get? Index.tokens id = (tokenAction acc id).apply (s.get? Index.tokens id) :=
    (hget id).trans (h.writtenOn_token hid)
  have hother (id : String) (hid : id ∉ (events ++ earlier).flatMap Delta.tokenNames) :
      Value.Ownerless (s.get? Index.tokens id) ∧ Value.Ownerless (t.get? Index.tokens id) := by
    have hold := hs.others id fun hn => hid (Delta.mem_names_right hn)
    refine ⟨hold, ?_⟩
    rw [hget, h.writtenOn_nft fun hn => hid (Delta.mem_names_left hn)]
    exact (ownerless_nftAction hold acc s id).congr (WriteAction.keeps_update (avoids_retypings (by decide)) _)
      (WriteAction.keeps_update (avoids_retypings (by decide)) _)
  refine ⟨⟨fun id => ?_, fun id hid => (hother id hid).2⟩, fun id => ?_⟩
  · by_cases hid : id ∈ (events ++ earlier).flatMap Delta.tokenNames
    · rw [htoken id hid]
      exact knowsOwners_tokenAction ho (hs.documents id) id
    · exact (hother id hid).2.knowsOwners
  · by_cases hid : id ∈ (events ++ earlier).flatMap Delta.tokenNames
    · rw [htoken id hid]
      exact ownersGrow_tokenAction (hs.documents id) acc id
    · exact (hother id hid).1.grow _

end Stores

end TokenWrites

open TokenWrites

namespace Indexer

variable (ix : Indexer) (block : Block)

/-- What the issue classifier accepts of a token among the events of a block, in order. -/
def acceptedOf (token : String) : List TokenInfo :=
  (ix.registry.tokenInfos block.pool block.header.timestamp).filter (·.token = token)

/-- Every classifier is at work. -/
theorem mem_classifiers (c : Classifier) : c ∈ ix.registry.classifiers := by
  have hstandard : c ∈ Classifier.standard := by cases c <;> decide
  exact hstandard

theorem infosOf_deltas (token : String) : infosOf (ix.deltas block) token = ix.acceptedOf block token := by
  rw [infosOf, deltas, Registry.filterMap_deltas (ix.mem_classifiers .issue)]
  rfl

/-- What is accepted of an event is of the token that it names, and its owner has the time of the block and the hash
of the log. -/
theorem mem_acceptedOf {log : Log} {event : Event} {info : TokenInfo} (hlog : log ∈ block.pool.logs)
    (hevent : event ∈ log.events)
    (h : Classifier.issue.classify event (ix.registry.context block.pool block.header.timestamp log) =
      .single (.token info)) :
    info ∈ ix.acceptedOf block info.token ∧
      info.ownerEntry = ⟨info.currentOwner, block.header.timestamp, log.txHash⟩ := by
  have hinfo : info ∈ (Classifier.issue.classify event
      (ix.registry.context block.pool block.header.timestamp log)).tokenInfos := by
    rw [h]
    exact List.mem_singleton_self info
  obtain ⟨name, -, hissue⟩ := Classifier.exists_issue_of_mem hinfo
  refine ⟨List.mem_filter.2 ⟨?_, decide_eq_true rfl⟩, (Classify.issue_accepted hissue).1⟩
  exact List.mem_flatMap.2 ⟨log, hlog, List.mem_flatMap.2 ⟨event, hevent, hinfo⟩⟩

variable {ix block} {down : List String}

theorem owned_accumulate (ix : Indexer) (block : Block) : (ix.accumulate block).Owned (ix.deltas block) :=
  ix.registry.owned_processLogs _ _

/-- A save keeps what is known of owners, whatever it fails to write. -/
theorem ownerDocuments_savedPartly (h : s.Sound events) (hs : OwnerDocuments events s)
    (hn : NamesApart (ix.deltas block ++ events)) (down : List String) :
    OwnerDocuments (ix.deltas block ++ events) (ix.savedPartly block down s) ∧
      ∀ id, Value.OwnersGrow (s.get? Index.tokens id) ((ix.savedPartly block down s).get? Index.tokens id) := by
  rcases get?_savedPartly_tokens (fits h hn) down with ⟨-, hsame⟩ | ⟨-, hget⟩
  · exact hs.mono hsame _
  · exact (fits h hn).ownerDocuments_writtenOn (ix.owned_accumulate block) hs hget

/-- A save that reaches the tokens does to each of them what its events say. -/
theorem get?_savedPartly_token (h : s.Sound events) (hn : NamesApart (ix.deltas block ++ events))
    (hdown : Index.tokens ∉ down) (hid : id ∈ (ix.deltas block).flatMap Delta.tokenNames) :
    (ix.savedPartly block down s).get? Index.tokens id =
      (tokenAction (ix.accumulate block) id).apply (s.get? Index.tokens id) := by
  rcases get?_savedPartly_tokens (fits h hn) down with ⟨hd, -⟩ | ⟨-, hget⟩
  · exact absurd hd hdown
  · exact (hget id).trans ((fits h hn).writtenOn_token (Delta.mem_names_left hid))

/-- Of every event that is accepted for a token a save that reaches the tokens enters the owner. -/
theorem mem_ownersIn_savedPartly (h : s.Sound events) (hn : NamesApart (ix.deltas block ++ events))
    (hdown : Index.tokens ∉ down) {token : String} {info : TokenInfo}
    (hinfo : info ∈ ix.acceptedOf block token) (hk : info.kind ≠ .change) :
    info.ownerEntry.toItem ∈ ownersIn ((ix.savedPartly block down s).get? Index.tokens token) := by
  rw [← infosOf_deltas ix block] at hinfo
  rw [get?_savedPartly_token h hn hdown (mem_tokenNames_of_infosOf hinfo), ownersIn_tokenAction,
    (ix.owned_accumulate block token).history]
  refine Value.mem_foldl_addItem ?_ info.ownerEntry.alone_toItem _
  exact List.mem_map_of_mem (List.mem_map_of_mem (List.mem_filter.2 ⟨hinfo, decide_eq_true hk⟩))

/-- Of the transfers of a token the last tells who owns it, after a save that reaches the tokens. -/
theorem currentOwner_savedPartly (h : s.Sound events) (hn : NamesApart (ix.deltas block ++ events))
    (hdown : Index.tokens ∉ down) {token : String} {info : TokenInfo}
    (hlast : ((ix.acceptedOf block token).filter (·.kind = .transferOwnership)).getLast? = some info) :
    Value.under ((ix.savedPartly block down s).get? Index.tokens token) "currentOwner" =
      some (.str info.currentOwner) := by
  rw [← infosOf_deltas ix block] at hlast
  have hinfo := (List.mem_filter.1 (List.mem_of_getLast? hlast)).1
  have hcurrent := (ix.owned_accumulate block token).current
  rw [hlast, Option.map_some] at hcurrent
  rw [get?_savedPartly_token h hn hdown (mem_tokenNames_of_infosOf hinfo), under_tokenAction (by decide),
    TokenAccumulator.get?_allMutations_currentOwner hcurrent]

end Indexer

namespace Call

def deltas : Call → List Delta
  | save ix block _ => ix.deltas block
  | revert .. => []

def told (calls : List Call) : List Delta := calls.reverse.flatMap deltas

theorem told_append (calls later : List Call) : told (calls ++ later) = told later ++ told calls := by
  simp [told]

theorem told_singleton (call : Call) : told [call] = call.deltas := List.append_nil _

theorem told_cons_append (call : Call) (calls : List Call) (events : List Delta) :
    told (call :: calls) ++ events = told calls ++ (call.deltas ++ events) := by
  rw [← List.singleton_append, told_append, told_singleton, List.append_assoc]

theorem run_perform (hrun : Run events s) {call : Call} (ho : call.Ordered) :
    Run (call.deltas ++ events) (call.perform s) := by
  cases call with
  | save ix block down => exact .save ix down hrun ho
  | revert ix header body down => exact .revert ix header body down hrun

/-- A call keeps what is known of owners. -/
theorem ownerDocuments_perform (hrun : Run events s) {call : Call} (hn : NamesApart (call.deltas ++ events))
    (hs : OwnerDocuments events s) : OwnerDocuments (call.deltas ++ events) (call.perform s) ∧
      ∀ id, Value.OwnersGrow (s.get? Index.tokens id) ((call.perform s).get? Index.tokens id) := by
  cases call with
  | save ix block down =>
    rw [perform_save]
    exact ix.ownerDocuments_savedPartly (hrun.sound hn.of_append) hs hn down
  | revert ix header body down =>
    rw [perform_revert]
    exact hs.mono (Rollback.get?_attempt_of_not_mem ix.denomination header body down (by decide) s) []

theorem run_performAll {calls : List Call} (hrun : Run events s) (ho : ∀ call ∈ calls, call.Ordered) :
    Run (told calls ++ events) (performAll calls s) := by
  induction calls generalizing events s with
  | nil => exact hrun
  | cons call rest ih =>
    obtain ⟨hcall, hrest⟩ := List.forall_mem_cons.1 ho
    rw [told_cons_append]
    exact ih (run_perform hrun hcall) hrest

/-- Calls one after the other keep what is known of owners. -/
theorem ownerDocuments_performAll {calls : List Call} (hrun : Run events s) (ho : ∀ call ∈ calls, call.Ordered)
    (hn : NamesApart (told calls ++ events)) (hs : OwnerDocuments events s) :
    OwnerDocuments (told calls ++ events) (performAll calls s) ∧
      ∀ id, Value.OwnersGrow (s.get? Index.tokens id) ((performAll calls s).get? Index.tokens id) := by
  induction calls generalizing events s with
  | nil => exact ⟨hs, fun _ => Value.OwnersGrow.refl _⟩
  | cons call rest ih =>
    obtain ⟨hcall, hrest⟩ := List.forall_mem_cons.1 ho
    rw [told_cons_append] at hn ⊢
    obtain ⟨hnext, hgrow⟩ := ownerDocuments_perform hrun hn.of_append hs
    obtain ⟨hdocuments, hmore⟩ := ih (run_perform hrun hcall) hrest hn hnext
    exact ⟨hdocuments, fun id => (hgrow id).trans (hmore id)⟩

theorem told_subset (calls : List Call) : told calls ⊆ calls.flatMap deltas := by
  intro delta hd
  obtain ⟨call, hc, hdelta⟩ := List.mem_flatMap.1 hd
  exact List.mem_flatMap.2 ⟨call, List.mem_reverse.1 hc, hdelta⟩

theorem namesApart_told {calls : List Call} (h : NamesApart (calls.flatMap deltas)) : NamesApart (told calls) :=
  h.mono (told_subset calls)

/-- What calls reach from an empty store. -/
theorem run_performAll_withPageSize (n : Nat) {calls : List Call} (ho : ∀ call ∈ calls, call.Ordered) :
    Run (told calls) (performAll calls (Store.withPageSize n)) := by
  have hrun := run_performAll (.start n) ho
  rwa [List.append_nil] at hrun

/-- In every run, what is stored of tokens tells of their owners in order. -/
theorem ownerDocuments_performAll_withPageSize (n : Nat) {calls : List Call} (ho : ∀ call ∈ calls, call.Ordered)
    (hn : NamesApart (told calls)) : OwnerDocuments (told calls) (performAll calls (Store.withPageSize n)) := by
  rw [← List.append_nil (told calls)] at hn ⊢
  exact (ownerDocuments_performAll (.start n) ho hn (ownerDocuments_withPageSize n)).1

/-- Issuers and owners of tokens are never taken back. The calls before are saves and reverts that reach any state
from an empty store, whatever indices are unavailable during each of them, and so are the calls after. An issuer that
a token has in that state it has later, and so it is with the time of the issue; the owners listed are the first of
those listed later, and no owner is listed twice. Where a save that reaches the tokens was last, every event of its
block that the issue classifier accepts for the token, a mere change of the type apart, has its owner in the list, with
the time of the block and the hash of the log; and the last transfer among them tells the current owner. -/
theorem owners_append_only (n : Nat) {before later : List Call} (ho : ∀ call ∈ before ++ later, call.Ordered)
    (hn : NamesApart ((before ++ later).flatMap deltas)) (token : String) :
    let early := (performAll before (Store.withPageSize n)).get? Index.tokens token
    let late := (performAll (before ++ later) (Store.withPageSize n)).get? Index.tokens token
    ((Value.under early "issuer").isSome → Value.under late "issuer" = Value.under early "issuer" ∧
      Value.under late "timestamp" = Value.under early "timestamp") ∧
    ownersIn early <+: ownersIn late ∧ Value.Distinct (ownersIn late) ∧
    ∀ ix block down, before.getLast? = some (.save ix block down) → Index.tokens ∉ down →
      (∀ log ∈ block.pool.logs, ∀ event ∈ log.events, ∀ info : TokenInfo,
        Classifier.issue.classify event (ix.registry.context block.pool block.header.timestamp log) =
          .single (.token info) → info.token = token → info.kind ≠ .change →
        (OwnerData.mk info.currentOwner block.header.timestamp log.txHash).toItem ∈ ownersIn early) ∧
      ∀ info, ((ix.acceptedOf block token).filter (·.kind = .transferOwnership)).getLast? = some info →
        Value.under early "currentOwner" = some (.str info.currentOwner) := by
  have hall := namesApart_told hn
  rw [told_append] at hall
  obtain ⟨hbefore, hlater⟩ := List.forall_mem_append.1 ho
  obtain ⟨hlast, hgrow⟩ := ownerDocuments_performAll (run_performAll_withPageSize n hbefore) hlater hall
    (ownerDocuments_performAll_withPageSize n hbefore hall.of_append)
  have hsplit : performAll (before ++ later) (Store.withPageSize n) =
      performAll later (performAll before (Store.withPageSize n)) := List.foldl_append
  rw [hsplit]
  refine ⟨(hgrow token).issue, (hgrow token).owners, (hlast.documents token).distinct,
    fun ix block down hsave hdown => ?_⟩
  obtain ⟨past, rfl⟩ : ∃ past, before = past ++ [.save ix block down] := List.getLast?_eq_some_iff.1 hsave
  have hpast : NamesApart (ix.deltas block ++ told past) := by
    have htold := hall.of_append
    rwa [told_append, told_singleton] at htold
  have hsound := (run_performAll_withPageSize n (List.forall_mem_append.1 hbefore).1).sound hpast.of_append
  have hsaved : performAll (past ++ [.save ix block down]) (Store.withPageSize n) =
      ix.savedPartly block down (performAll past (Store.withPageSize n)) := by
    rw [performAll, List.foldl_append]
    exact perform_save ix block down
  rw [hsaved]
  refine ⟨fun log hlog event hevent info haccepted ht hk => ?_, fun info hinfo => ?_⟩
  · obtain ⟨hmem, hentry⟩ := ix.mem_acceptedOf block hlog hevent haccepted
    rw [← hentry]
    exact Indexer.mem_ownersIn_savedPartly hsound hpast hdown (ht ▸ hmem) hk
  · exact Indexer.currentOwner_savedPartly hsound hpast hdown hinfo

/-- A token is issued, handed over and issued again. Then a second issuer takes it, but the tokens are unavailable when
that block is saved; it is reverted, and saved once more. -/
theorem owners_append_only_transferred :
    let ix : Indexer := {}
    let issue (caller : UInt8) : Event :=
      { address := [caller], identifier := "issue", topics := [[84], [84], [84], [70]] }
    let transfer (owner : UInt8) : Event :=
      { address := [1], identifier := "transferOwnership", topics := [[84], [84], [84], [70], [owner]] }
    let first : Block :=
      { header := { hash := [1], timestamp := 5 }
        pool := { logs := [{ txHash := "a1", events := [issue 1, transfer 2, issue 1] }] } }
    let second : Block :=
      { header := { hash := [2], timestamp := 6 }
        pool := { logs := [{ txHash := "b2", events := [issue 3, transfer 3] }] } }
    let before : List Call := [.save ix first []]
    let later : List Call :=
      [.save ix second [Index.tokens], .revert ix second.header second.body [], .save ix second [Index.blocks]]
    let early := (performAll before (Store.withPageSize 10)).get? Index.tokens "T"
    let late := (performAll (before ++ later) (Store.withPageSize 10)).get? Index.tokens "T"
    (∀ call ∈ before ++ later, call.Ordered) ∧ NamesApart ((before ++ later).flatMap deltas) ∧
      Value.under early "currentOwner" = some (.str "02") ∧ Value.under late "issuer" = some (.str "01") ∧
      (OwnerData.mk "01" 5 "a1").toItem ∈ ownersIn late ∧ (OwnerData.mk "02" 5 "a1").toItem ∈ ownersIn late ∧
      Value.Distinct (ownersIn late) := by
  intro ix issue transfer first second before later early late
  have hfirst : first.Ordered := ⟨List.Pairwise.nil, List.Pairwise.nil⟩
  have hsecond : second.Ordered := ⟨List.Pairwise.nil, List.Pairwise.nil⟩
  have hordered : ∀ call ∈ before ++ later, call.Ordered := by simp [before, later, Ordered, hfirst, hsecond]
  have hapart : NamesApart ((before ++ later).flatMap deltas) := by decide +kernel
  obtain ⟨hissue, hgrow, hdistinct, hsaved⟩ := owners_append_only 10 hordered hapart "T"
  obtain ⟨hentries, hcurrent⟩ := hsaved ix first [] rfl List.not_mem_nil
  have hissuer : Value.under early "issuer" = some (.str "01") := by
    have hwritten : early = (tokenAction (ix.accumulate first) "T").apply none :=
      (congrArg (·.get? Index.tokens "T") (perform_save ix first [])).trans
        (Indexer.get?_savedPartly_token (Store.sound_withPageSize 10) (by decide +kernel) List.not_mem_nil
          (by decide +kernel))
    have hknown : ((ix.accumulate first).ofToken "T").issuer = some "01" := by decide +kernel
    rw [hwritten, under_tokenAction (by decide), TokenAccumulator.get?_allMutations_issuer, hknown]
    rfl
  let log : Log := { txHash := "a1", events := [issue 1, transfer 2, issue 1] }
  have hlisted (event : Event) (info : TokenInfo) (he : event ∈ log.events)
      (h : Classifier.issue.classify event (ix.registry.context first.pool 5 log) = .single (.token info))
      (ht : info.token = "T") (hk : info.kind ≠ .change) :
      (OwnerData.mk info.currentOwner 5 "a1").toItem ∈ ownersIn late :=
    hgrow.subset (hentries log (List.mem_singleton_self log) event he info h ht hk)
  let info (kind : TokenEventKind) (owner : String) : TokenInfo :=
    { kind, token := "T", name := "T", ticker := "T", type := "F", decimals := none, issuer := "01"
      currentOwner := owner, ownerEntry := ⟨owner, 5, "a1"⟩, changeToDynamic := false, timestamp := 5 }
  refine ⟨hordered, hapart, ?_, (hissue (hissuer ▸ rfl)).1.trans hissuer, ?_, ?_, hdistinct⟩
  · exact hcurrent (info .transferOwnership "02") (by decide +kernel)
  · exact hlisted (issue 1) (info .issue "01") List.mem_cons_self (by decide +kernel) rfl (by decide)
  · exact hlisted (transfer 2) (info .transferOwnership "02") (List.mem_cons_of_mem _ List.mem_cons_self)
      (by decide +kernel) rfl (by decide)

end Call
end ChainIndex
