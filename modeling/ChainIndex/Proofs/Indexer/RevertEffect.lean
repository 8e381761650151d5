import ChainIndex.Proofs.Indexer.BlockWrites
import ChainIndex.Proofs.Indexer.Calls
import ChainIndex.Proofs.Indexer.Reached
import ChainIndex.Proofs.Indexer.Repetition
import ChainIndex.Proofs.Indexer.Success

/-!
The effect of a revert, document by document. In the stores that calls reach every transaction shows a ledger, so
what a revert leaves of one that results of the body belong to can be told by its fields: the refunds of those
results are taken back, and fee and gas get what the refunds were worth.
-/
namespace ChainIndex

variable {d : Denomination} {header : Header} {body : Body} {s t : Store} {name id : String} {doc : Value}
  {stored : Option Value}

section Ledgers

def Store.ShowsLedgers (d : Denomination) (s : Store) : Prop :=
  ∀ name ∈ Index.records, ∀ id doc, s.get? name id = some doc → ∃ l : Ledger, l.Shows d doc

/-- Unwinding leaves a document that shows a ledger, if it was one. -/
theorem Rollback.exists_shows_unwoundAt {hashes : List String}
    (h : ∀ old, stored = some old → ∃ l : Ledger, l.Shows d old)
    (hdoc : unwoundAt d hashes s id stored = some doc) : ∃ l : Ledger, l.Shows d doc :=
  unwoundAt_induction h
    (fun results others _ ⟨l, hl⟩ => ⟨l.withdrawn d results, shows_unwindMutations results others hl⟩) hdoc

namespace Call

/-- In every run, the fees of stored transactions are those of a ledger. -/
theorem showsLedgers_perform {call : Call} (h : s.Usable) (ho : call.Ordered) (hd : call.denomination = d)
    (hl : s.ShowsLedgers d) : (call.perform s).ShowsLedgers d := by
  intro name hn id doc hdoc
  cases call with
  | save ix block down =>
    rcases get?_perform_save ix down h ho hn with ⟨-, hsame⟩ | hget
    · rw [hsame] at hdoc
      exact hl name hn id doc hdoc
    · rw [hget] at hdoc
      have hstored : ∃ l : Ledger, l.Shows d ((s.get? name id).getD .empty) := by
        cases hg : s.get? name id with
        | none => exact ⟨{}, Ledger.shows_empty⟩
        | some old => exact hl name hn id old hg
      obtain ⟨l, hshows⟩ := hstored
      obtain ⟨l', hshows', -⟩ := ix.exists_shows_recordAfter block hd hshows hdoc
      exact ⟨l', hshows'⟩
  | revert ix header body down =>
    obtain rfl : ix.denomination = d := hd
    have hpartly := remainsPartly_perform ix header body down h
    by_cases hdown : name ∈ down
    · rw [hpartly.failed name hdown] at hdoc
      exact hl name hn id doc hdoc
    · rw [hpartly.records name hn hdown] at hdoc
      split at hdoc
      · cases hdoc
      · split at hdoc
        · exact hl name hn id doc hdoc
        · exact Rollback.exists_shows_unwoundAt (fun old hold => hl name hn id old hold) hdoc

/-- Calls of indexers with one denomination leave only transactions that show ledgers. -/
theorem showsLedgers_performAll (n : Nat) {calls : List Call} (ho : ∀ call ∈ calls, call.Ordered)
    (hd : ∀ call ∈ calls, call.denomination = d) :
    (performAll calls (Store.withPageSize n)).ShowsLedgers d :=
  (performAll_induction (Store.usable_withPageSize n) (fun _ _ _ _ => nofun) fun call hc _ ht hl =>
    showsLedgers_perform ht (ho call hc) (hd call hc) hl).2

end Call

end Ledgers

namespace Rollback

/-- What is left of a document once the refunds of some results are taken back. It has the other refunds; fee and gas
have grown by what those refunds were worth, as far as they can, where there are any; the mark of results is gone
unless there are others; and every other field is as before. -/
structure Withdraws (d : Denomination) (results : List String) (others : Prop) (doc left : Value) : Prop where
  ledgers : ∃ before after : Ledger, before.Shows d doc ∧ after.Shows d left ∧
    (∀ hash, after.refunds.find? hash = if hash ∈ results then none else before.refunds.find? hash) ∧
    before.Raised after ∧ after.charge.isSome = before.charge.isSome
  marked : others → left.get? hasScResults = doc.get? hasScResults
  unmarked : ¬others → left.get? hasScResults = none
  fields : ∀ key, key ∉ Fee.fields → key ≠ hasScResults → left.get? key = doc.get? key

/-- Unwinding a document that shows a ledger takes back exactly the given refunds. -/
theorem withdraws_unwindMutations {l : Ledger} (h : l.Shows d doc) (results : List String) {others : Prop}
    {left : Bool} (ho : left = true ↔ others) :
    Withdraws d results others doc (Mutation.applyAll (unwindMutations d results left) doc) := by
  have hmark : hasScResults ∉ Fee.fields := by decide
  refine ⟨⟨l, l.withdrawn d results, h, shows_unwindMutations results left h, Ledger.find?_withdrawn results l,
    Ledger.raised_withdrawn h.sorted results, Ledger.isSome_charge_withdrawn results l⟩, fun hother => ?_,
    fun hother => ?_, fun key hfee hk => ?_⟩
  · rw [get?_unwindMutations d results left doc hmark, ho.2 hother]
    simp
  · have hleft : left = false := Bool.eq_false_iff.2 fun hl => hother (ho.1 hl)
    rw [get?_unwindMutations d results left doc hmark, hleft]
    simp
  · rw [get?_unwindMutations d results left doc hfee, if_neg fun h => hk h.2.symm]

/-- A transaction that is unwound stays if it has a field left that no placeholder has. -/
theorem unwound_of_field {ms : List Mutation} {key : String} (hk : key ∉ placeholderFields)
    (hf : ((Mutation.applyAll ms doc).get? key).isSome = true) :
    unwound ms (some doc) = some (Mutation.applyAll ms doc) := by
  have hbare : isBarePlaceholder (Mutation.applyAll ms doc) = false := by
    refine Bool.eq_false_iff.2 fun hbare => ?_
    rw [get?_of_isBarePlaceholder hbare hk] at hf
    cases hf
  simp [unwound, hbare]

/-- It goes otherwise, unless it had a fee. -/
theorem unwound_of_bare {ms : List Mutation} (hr : (Mutation.applyAll ms doc).IsRecord)
    (hfee : doc.get? Fee.feeField = none)
    (hbare : ∀ key, key ∉ placeholderFields → (Mutation.applyAll ms doc).get? key = none) :
    unwound ms (some doc) = none := by
  simp [unwound, hfee, isBarePlaceholder_of_get? hr hbare]

/-- The effect of a revert. A document is another one afterwards, or gone, only where this says so. -/
structure Effect (d : Denomination) (header : Header) (body : Body) (s t : Store) : Prop where
  /-- Tokens, delegators and deployed contracts stay. -/
  others : ∀ name, name ∉ Index.revertible → t.index name = s.index name
  blocks : ∀ id, t.get? Index.blocks id = if header.hashHex = id then none else s.get? Index.blocks id
  /-- A miniblock that the shard sends goes. -/
  sent : ∀ m ∈ body.miniBlocks, m.sender = header.shard → t.get? Index.miniBlocks m.hashHex = none
  /-- One that it only receives loses the hash of the receiving block. -/
  received : ∀ id, (∀ m ∈ body.miniBlocks, m.hashHex = id → m.sender ≠ header.shard) →
    (∃ m ∈ body.miniBlocks, m.hashHex = id ∧ m.receiver = header.shard) →
    t.get? Index.miniBlocks id = (s.get? Index.miniBlocks id).map (·.eraseKey receiverBlockHash)
  miniBlocks : ∀ id, (∀ m ∈ body.miniBlocks, m.hashHex = id → m.sender ≠ header.shard ∧ m.receiver ≠ header.shard) →
    t.get? Index.miniBlocks id = s.get? Index.miniBlocks id
  balances : ∀ id, t.get? Index.balances id =
    (s.get? Index.balances id).filter (!(Query.writtenByBlock header.timestamp header.shard).selects ·)
  /-- Whatever the body names goes. -/
  named : ∀ name ∈ [Index.transactions, Index.scResults, Index.operations], ∀ id ∈ body.txHashes,
    t.get? name id = none
  scResults : ∀ id, id ∉ body.txHashes → t.get? Index.scResults id = s.get? Index.scResults id
  /-- A transaction that no stored result of the body belongs to stays. -/
  records : ∀ name ∈ Index.records, ∀ id, id ∉ body.txHashes → resultsOf body.txHashes s id = [] →
    t.get? name id = s.get? name id
  /-- Any other loses what its results gave, and goes once nothing but fields of placeholders is left. -/
  parents : ∀ name ∈ Index.records, ∀ id, id ∉ body.txHashes → resultsOf body.txHashes s id ≠ [] →
    (s.get? name id = none → t.get? name id = none) ∧ ∀ doc, s.get? name id = some doc → ∃ left,
      Withdraws d (resultsOf body.txHashes s id)
        (∃ hash, hash ∉ body.txHashes ∧ originOf (s.get? Index.scResults hash) = some id) doc left ∧
      ((∃ key, key ∉ placeholderFields ∧ (left.get? key).isSome = true) → t.get? name id = some left) ∧
      ((∀ key, key ∉ placeholderFields → left.get? key = none) → t.get? name id = none)

/-- What remains of a transaction that results of the body belong to. -/
theorem Remains.effect_parent (h : Remains d header body s t) (hs : s.Usable) (hl : s.ShowsLedgers d)
    (hn : name ∈ Index.records) (hid : id ∉ body.txHashes) (hr : resultsOf body.txHashes s id ≠ [])
    (hdoc : s.get? name id = some doc) : ∃ left,
      Withdraws d (resultsOf body.txHashes s id)
        (∃ hash, hash ∉ body.txHashes ∧ originOf (s.get? Index.scResults hash) = some id) doc left ∧
      ((∃ key, key ∉ placeholderFields ∧ (left.get? key).isSome = true) → t.get? name id = some left) ∧
      ((∀ key, key ∉ placeholderFields → left.get? key = none) → t.get? name id = none) := by
  obtain ⟨l, hshows⟩ := hl name hn id doc hdoc
  have hothers : Rollback.others body.txHashes s id = true ↔
      ∃ hash, hash ∉ body.txHashes ∧ originOf (s.get? Index.scResults hash) = some id := others_eq_true_iff hs
  have hleft := withdraws_unwindMutations hshows (resultsOf body.txHashes s id) hothers
  have hget : t.get? name id = unwound
      (unwindMutations d (resultsOf body.txHashes s id) (Rollback.others body.txHashes s id)) (some doc) := by
    rw [h.records name hn, if_neg hid, hdoc, unwoundAt_eq_unwound hid hr]
  refine ⟨_, hleft, fun ⟨key, hk, hf⟩ => hget.trans (unwound_of_field hk hf), fun hbare => ?_⟩
  obtain ⟨before, after, hbefore, hafter, -, -, hcharge⟩ := hleft.ledgers
  have hfee : doc.get? Fee.feeField = none := by
    have hgone := hbare Fee.feeField (by decide)
    rw [hafter.fee, Option.map_eq_none_iff] at hgone
    have hnone : before.charge = none := by
      rw [← Option.not_isSome_iff_eq_none, ← hcharge, hgone]
      exact Bool.false_ne_true
    rw [hbefore.fee, hnone]
    rfl
  exact hget.trans (unwound_of_bare hafter.record hfee hbare)

theorem Remains.effect (h : Remains d header body s t) (hs : s.Usable) (hl : s.ShowsLedgers d)
    (hframe : ∀ name, name ∉ Index.revertible → t.index name = s.index name) : Effect d header body s t where
  others := hframe
  blocks := h.blocks
  sent := fun m hm hsent => (h.miniBlocks _).trans (applyAt_miniBlockReverts_of_sent ⟨m, hm, rfl, hsent⟩ _)
  received := fun id hsent hreceived => by
    have hany : body.miniBlocks.any (fun m => m.hashHex = id ∧ m.receiver = header.shard) = true := by
      simpa using hreceived
    rw [h.miniBlocks, miniBlockReverts, applyAt_miniBlockReverts_of_not_sent hsent, if_pos hany]
  miniBlocks := fun id hnone => by
    have hany : ¬body.miniBlocks.any (fun m => m.hashHex = id ∧ m.receiver = header.shard) = true := by
      simpa using fun m hm hid => (hnone m hm hid).2
    rw [h.miniBlocks, miniBlockReverts, applyAt_miniBlockReverts_of_not_sent fun m hm hid => (hnone m hm hid).1,
      if_neg hany]
  balances := h.balances
  named := fun name hn id hid => by
    simp only [List.mem_cons, List.not_mem_nil, or_false] at hn
    rcases hn with rfl | rfl | rfl
    · rw [h.records _ (by decide), if_pos hid]
    · rw [h.scResults, if_pos hid]
    · rw [h.records _ (by decide), if_pos hid]
  scResults := fun id hid => (h.scResults id).trans (if_neg hid)
  records := fun name hn id hid hr => by
    rw [h.records name hn, if_neg hid, unwoundAt_eq_self hr]
  parents := fun name hn id hid hr => by
    refine ⟨fun hnone => ?_, fun doc hdoc => h.effect_parent hs hl hn hid hr hdoc⟩
    rw [h.records name hn, if_neg hid, hnone, unwoundAt_eq_unwound hid hr]
    rfl

end Rollback

namespace Call

/-- Effect and frame of a revert. In every store that calls of indexers with one denomination reach from an empty one,
whatever they saved and reverted and whatever was unavailable meanwhile, a revert by any header and any body succeeds
if all indices are available; and whenever it succeeds, it has exactly the effect told by `Rollback.Effect`. -/
theorem revert_effect (n : Nat) {calls : List Call} (ho : ∀ call ∈ calls, call.Ordered) (ix : Indexer)
    (hd : ∀ call ∈ calls, call.denomination = ix.denomination) (header : Header) (body : Body) (down : List String) :
    let s := performAll calls (Store.withPageSize n)
    let outcome := (ix.revertBlock header body (s.withUnavailable down)).1
    (down = [] → outcome = .ok ()) ∧ (outcome = .ok () →
      Rollback.Effect ix.denomination header body s ((revert ix header body down).perform s)) := by
  intro s outcome
  have husable : s.Usable := usable_performAll calls (Store.usable_withPageSize n)
  refine ⟨fun hup => ?_, fun hok => ?_⟩
  · subst hup
    have hspec := (ix.revertBlock_spec header body husable).1
    rwa [← husable.withUnavailable_nil] at hspec
  · have hremains := ix.remains_of_revertBlock_ok header body husable down hok
    rw [perform_revert]
    exact hremains.effect husable (showsLedgers_performAll n ho hd) fun name hname =>
      (Rollback.within_revertBlock ix.denomination header body).index_attempt hname down s

/-- A block with a refund is reverted after the block of the transaction that it belongs to was saved. -/
theorem revert_effect_refund :
    let ix : Indexer := {}
    let info : TxInfo :=
      { transaction := { gasLimit := 50000 }, feeInfo := { initialPaidFee := ⟨1000000, by decide⟩ } }
    let refund : ScResultInfo :=
      { result := { originTxHash := [0xaa] }, feeInfo := { fee := ⟨100000, by decide⟩, gasRefunded := 5000 } }
    let first : Block := { header := { hash := [1] }, pool := { transactions := [("aa", info)] } }
    let second : Block :=
      { header := { hash := [2] }, body := ⟨[{ hash := [0x5c], kind := .scResults, txHashes := [[0xb1]] }]⟩
        pool := { scResults := [("b1", refund)] } }
    let calls : List Call := [.save ix first [], .save ix second []]
    let s := performAll calls (Store.withPageSize 10)
    let t := (revert ix second.header second.body []).perform s
    (∀ call ∈ calls, call.Ordered) ∧ (∀ call ∈ calls, call.denomination = ix.denomination) ∧
      Rollback.Effect ix.denomination second.header second.body s t ∧
      ∃ doc left, s.get? Index.transactions "aa" = some doc ∧ t.get? Index.transactions "aa" = some left ∧
        Rollback.Withdraws ix.denomination ["b1"]
          (∃ hash, hash ∉ second.body.txHashes ∧ Rollback.originOf (s.get? Index.scResults hash) = some "aa")
          doc left := by
  intro ix info refund first second calls s t
  have hfirst : first.Ordered := ⟨by simp [first, Dict.Sorted], List.Pairwise.nil⟩
  have hsecond : second.Ordered := ⟨List.Pairwise.nil, by simp [second, Dict.Sorted]⟩
  have hordered : ∀ call ∈ calls, call.Ordered := by simp [calls, Ordered, hfirst, hsecond]
  have hdenomination : ∀ call ∈ calls, call.denomination = ix.denomination := by simp [calls, denomination]
  have hrevert := revert_effect 10 hordered ix hdenomination second.header second.body []
  have heffect : Rollback.Effect ix.denomination second.header second.body s t := hrevert.2 (hrevert.1 rfl)
  have hempty := Store.usable_withPageSize 10
  have hlast : s = ix.saved second (ix.saved first (Store.withPageSize 10)) := by
    have hbefore := perform_save_nil ix first hempty
    have hafter := perform_save_nil ix second (ix.usable_saved first hempty)
    rw [← hbefore] at hafter
    rw [← hbefore]
    exact hafter
  have hfound : s.get? Index.transactions "aa" = ix.recordAfter second Index.transactions "aa"
      (ix.recordAfter first Index.transactions "aa" none) := by
    rw [hlast, ix.get?_saved_records second (ix.usable_saved first hempty) hsecond (by decide),
      ix.get?_saved_records first hempty hfirst (by decide)]
    rfl
  have hhashes : second.body.txHashes = ["b1"] := by decide +kernel
  have horigin : Rollback.originOf (s.get? Index.scResults "b1") = some "aa" := by
    have hinfo : second.pool.scResults.find? "b1" = some refund := rfl
    rw [hlast, Rollback.originOf_saved ix (ix.usable_saved first hempty) hsecond, hinfo]
    decide +kernel
  have hresults : Rollback.resultsOf second.body.txHashes s "aa" = ["b1"] := by
    simp [Rollback.resultsOf, hhashes, horigin]
  have hgas : ((ix.recordAfter second Index.transactions "aa" (ix.recordAfter first Index.transactions "aa" none)).bind
      (·.get? "gasLimit")).isSome = true := by decide +kernel
  rw [← hfound] at hgas
  cases hdoc : s.get? Index.transactions "aa" with
  | none =>
    rw [hdoc] at hgas
    cases hgas
  | some doc =>
    rw [hdoc] at hgas
    have hparents := heffect.parents Index.transactions (by decide) "aa" (by simp [hhashes]) (by simp [hresults])
    obtain ⟨left, hleft, hstays, -⟩ := hparents.2 doc hdoc
    rw [hresults] at hleft
    have hkept : (left.get? "gasLimit").isSome = true := by
      rw [hleft.fields "gasLimit" (by decide) (by decide)]
      exact hgas
    exact ⟨hordered, hdenomination, heffect, doc, left, rfl, hstays ⟨"gasLimit", by decide, hkept⟩, hleft⟩

end Call
end ChainIndex
