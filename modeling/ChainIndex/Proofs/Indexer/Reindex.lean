import ChainIndex.Proofs.Indexer.BlockWrites
import ChainIndex.Proofs.Indexer.Reached
import ChainIndex.Proofs.Indexer.Repetition

/-!
A block that is reverted and saved again. The revert removes each document that the body names, with
all that other blocks gave to it, and takes back a refund under a result of the body whoever brought
it. The store comes out the same exactly if nothing of that kind was in it.
-/
namespace ChainIndex

variable {d : Denomination} {blocks : List Block} {block : Block} {s : Store} {name id : String}

/-- The body lists all transactions and results of the pool. -/
structure Block.Lists (block : Block) : Prop where
  transactions : ∀ hash, block.pool.transactions.has hash = true → hash ∈ block.body.txHashes
  scResults : ∀ hash, block.pool.scResults.has hash = true → hash ∈ block.body.txHashes

namespace Block.Lists

theorem find?_transactions (h : block.Lists) (hid : id ∉ block.body.txHashes) :
    block.pool.transactions.find? id = none := by
  cases hf : block.pool.transactions.find? id with
  | none => rfl
  | some info => exact absurd (h.transactions id (by simp [Dict.has, hf])) hid

theorem find?_scResults (h : block.Lists) (hid : id ∉ block.body.txHashes) :
    block.pool.scResults.find? id = none := by
  cases hf : block.pool.scResults.find? id with
  | none => rfl
  | some info => exact absurd (h.scResults id (by simp [Dict.has, hf])) hid

end Block.Lists

/-- Stored miniblocks are records. -/
theorem Reached.isRecord_miniBlock (h : Reached d blocks s) {doc : Value}
    (hdoc : s.get? Index.miniBlocks id = some doc) : doc.IsRecord := by
  induction h generalizing doc with
  | start n => cases hdoc
  | @save blocks s ix block report hs hd hb _ ih =>
    replace hdoc := (ix.get?_saved block hs.usable (by decide) id).symm.trans hdoc
    exact isRecord_applyAt_miniBlockWrites block.body (fun old hold => ih hold) hdoc

namespace Indexer

variable (ix : Indexer) (block : Block)

/-- What is left of the documents of a saved block when it is reverted. -/
theorem remains_saved (h : s.Usable) :
    Rollback.Remains ix.denomination block.header block.body (ix.saved block s)
      (ix.reverted block.header block.body (ix.saved block s)) :=
  (ix.revertBlock_spec block.header block.body (ix.usable_saved block h)).2

def reindexed (s : Store) : Store :=
  ix.saved block (ix.reverted block.header block.body (ix.saved block s))

/-- What a revert of the block takes, saving it again brings back. -/
structure Reproducible (s : Store) : Prop where
  /-- Documents that the body names are those that the block writes where nothing is stored. -/
  named : ∀ name ∈ [Index.transactions, Index.operations, Index.scResults], ∀ id ∈ block.body.txHashes,
    ix.written block name id (s.get? name id) = ix.written block name id none
  /-- So are the miniblocks that its shard sends. -/
  sent : ∀ m ∈ block.body.miniBlocks, m.sender = block.header.shard →
    ix.written block Index.miniBlocks m.hashHex (s.get? Index.miniBlocks m.hashHex) =
      ix.written block Index.miniBlocks m.hashHex none
  /-- Balances of its time stamp and shard are its own. -/
  balances : ∀ id doc, s.get? Index.balances id = some doc →
    (Query.writtenByBlock block.header.timestamp block.header.shard).selects doc = true →
    ∃ item ∈ ix.writesTo block Index.balances, item.id = id
  /-- A refund that a transaction of another block has under one of its results is the one it brings. -/
  refunds : ∀ name ∈ Index.records, ∀ hash info, block.pool.scResults.find? hash = some info →
    info.result.originHash ∉ block.body.txHashes → ∀ doc, s.get? name info.result.originHash = some doc →
    ∀ refund, (Fee.storedRefunds doc).find? hash = some refund → info.refund? = some refund

/-- What a block makes of a transaction that it does not hold. -/
theorem recordAfter_of_foreign (ht : block.pool.transactions.find? id = none)
    (hr : block.pool.scResults.find? id = none) (name : String) (stored : Option Value) :
    ix.recordAfter block name id stored =
      if id ∈ block.pool.origins ∨ (ix.signals block).has id then
        some ((ix.foreignUpdate block id).addTo ix.denomination name (stored.getD .empty))
      else stored := by
  have hresult : (if name = Index.operations then ix.resultDocument block id else none) = none := by
    rw [(ix.resultDocument_eq_none_iff block).2 hr, ite_self]
  unfold recordAfter
  rw [hresult, ix.changes?_of_foreign block ht]
  by_cases hadds : id ∈ block.pool.origins ∨ (ix.signals block).has id = true
  · simp only [if_pos hadds]
    rfl
  · simp only [if_neg hadds]

section Reindexed

variable {ix block}

theorem get?_reindexed (h : s.Usable) (hn : name ∈ Index.revertible) (id : String) :
    (ix.reindexed block s).get? name id = ix.written block name id
      ((ix.reverted block.header block.body (ix.saved block s)).get? name id) := by
  have hremains := ix.remains_saved block h
  exact ix.get?_saved block hremains.usable hn id

theorem get?_reindexed_blocks (h : s.Usable) (id : String) :
    (ix.reindexed block s).get? Index.blocks id = (ix.saved block s).get? Index.blocks id := by
  have hremains := ix.remains_saved block h
  have hwrites : ix.writesTo block Index.blocks = [blockWrite block.header block.body] := rfl
  rw [get?_reindexed h (by decide), hremains.blocks, ix.get?_saved block h (by decide), written, written,
    hwrites]
  by_cases hid : block.header.hashHex = id <;> simp [hid, blockWrite, WriteAction.apply]

/-- Balances come back if the block writes each of those that its revert takes. -/
theorem reindexed_balances_iff (h : s.Usable) (id : String) :
    (ix.reindexed block s).get? Index.balances id = (ix.saved block s).get? Index.balances id ↔
      ∀ doc, s.get? Index.balances id = some doc →
        (Query.writtenByBlock block.header.timestamp block.header.shard).selects doc = true →
        ∃ item ∈ ix.writesTo block Index.balances, item.id = id := by
  have hremains := ix.remains_saved block h
  rw [get?_reindexed h (by decide), hremains.balances, ix.get?_saved block h (by decide), written,
    written]
  by_cases hm : ∃ item ∈ ix.writesTo block Index.balances, item.id = id
  · have habsolute := BalanceWriter.isAbsolute_writes (ix.balanceWriter block.header) block.accounts
    exact iff_of_true (WriteItem.applyAt_eq_of_absolute habsolute hm _ _) fun _ _ _ => hm
  · have hskip (stored : Option Value) :
        WriteItem.applyAt id (ix.writesTo block Index.balances) stored = stored :=
      WriteItem.applyAt_of_not_mem stored fun item hi hid => hm ⟨item, hi, hid⟩
    simp only [hskip, hm, imp_false]
    cases s.get? Index.balances id <;> simp

/-- A miniblock that the shard sends comes back if what was stored of it before did not matter. -/
theorem reindexed_miniBlocks_iff (h : Reached d blocks s) (id : String) :
    (ix.reindexed block s).get? Index.miniBlocks id = (ix.saved block s).get? Index.miniBlocks id ↔
      ((∃ m ∈ block.body.miniBlocks, m.hashHex = id ∧ m.sender = block.header.shard) →
        ix.written block Index.miniBlocks id (s.get? Index.miniBlocks id) =
          ix.written block Index.miniBlocks id none) := by
  have hremains := ix.remains_saved block h.usable
  rw [get?_reindexed h.usable (by decide), hremains.miniBlocks, ix.get?_saved block h.usable (by decide)]
  by_cases hm : ∃ m ∈ block.body.miniBlocks, m.hashHex = id ∧ m.sender = block.header.shard
  · have hgone (stored : Option Value) :
        WriteItem.applyAt id (miniBlockReverts block.header block.body) stored = none :=
      applyAt_miniBlockReverts_of_sent hm stored
    rw [hgone]
    exact ⟨fun same _ => same.symm, fun same => (same hm).symm⟩
  · refine iff_of_true ?_ fun found => absurd found hm
    exact applyAt_miniBlocks_of_not_sent (fun m hmem hid hsent => hm ⟨m, hmem, hid, hsent⟩)
      fun doc hdoc => h.isRecord_miniBlock hdoc

/-- A result that the body names comes back if what was stored before did not matter. -/
theorem reindexed_scResults_iff (h : s.Usable) (hb : block.Ordered) (hl : block.Lists) (id : String) :
    (ix.reindexed block s).get? Index.scResults id = (ix.saved block s).get? Index.scResults id ↔
      (id ∈ block.body.txHashes →
        ix.written block Index.scResults id (s.get? Index.scResults id) =
          ix.written block Index.scResults id none) := by
  have hremains := ix.remains_saved block h
  rw [get?_reindexed h (by decide), hremains.scResults, ix.get?_saved block h (by decide)]
  by_cases hid : id ∈ block.body.txHashes
  · rw [if_pos hid]
    exact ⟨fun same _ => same.symm, fun same => (same hid).symm⟩
  · have hnone := (ix.resultDocument_eq_none_iff block).2 (hl.find?_scResults hid)
    simp [hid, ix.written_scResults block hb, hnone]

/-- A document that the body names comes back if what was stored before did not matter. -/
theorem reindexed_named_iff (h : s.Usable) (hn : name ∈ Index.records) (hid : id ∈ block.body.txHashes) :
    (ix.reindexed block s).get? name id = (ix.saved block s).get? name id ↔
      ix.written block name id (s.get? name id) = ix.written block name id none := by
  have hremains := ix.remains_saved block h
  have hr := Index.mem_revertible_of_mem_records hn
  rw [get?_reindexed h hr, hremains.records name hn, if_pos hid, ix.get?_saved block h hr]
  exact eq_comm

/-- Where the results that the body names are those of the block, the ones that name a transaction are
those of the pool. -/
theorem mem_resultsOf_saved (h : s.Usable) (hb : block.Ordered) (hl : block.Lists)
    (hnamed : ∀ hash ∈ block.body.txHashes,
      ix.written block Index.scResults hash (s.get? Index.scResults hash) =
        ix.written block Index.scResults hash none) {hash : String} :
    hash ∈ Rollback.resultsOf block.body.txHashes (ix.saved block s) id ↔
      ∃ info, block.pool.scResults.find? hash = some info ∧ info.result.originHash = id := by
  have hstored : hash ∈ block.body.txHashes →
      (ix.saved block s).get? Index.scResults hash = ix.resultDocument block hash := by
    intro hm
    have hsame := hnamed hash hm
    rw [ix.written_scResults block hb, ix.written_scResults block hb, Option.or_none] at hsame
    rw [ix.get?_saved_scResults block h hb, hsame]
  rw [Rollback.mem_resultsOf]
  constructor
  · rintro ⟨hm, horigin⟩
    rw [hstored hm] at horigin
    cases hi : block.pool.scResults.find? hash with
    | none =>
      rw [(ix.resultDocument_eq_none_iff block).2 hi] at horigin
      cases horigin
    | some info =>
      rw [Rollback.originOf_resultDocument ix block hi] at horigin
      exact ⟨info, rfl, Option.some.inj horigin⟩
  · rintro ⟨info, hi, rfl⟩
    have hm := hl.scResults hash (by simp [Dict.has, hi])
    exact ⟨hm, (congrArg Rollback.originOf (hstored hm)).trans (Rollback.originOf_resultDocument ix block hi)⟩

theorem mem_origins_iff (hb : block.Ordered) :
    id ∈ block.pool.origins ↔
      ∃ hash info, block.pool.scResults.find? hash = some info ∧ info.result.originHash = id := by
  simp only [Pool.origins, List.mem_map]
  constructor
  · rintro ⟨⟨hash, info⟩, hm, rfl⟩
    exact ⟨hash, info, hb.scResults.find?_of_mem hm, rfl⟩
  · rintro ⟨hash, info, hi, rfl⟩
    exact ⟨(hash, info), Dict.mem_of_find? hi, rfl⟩

section Foreign

variable (h : Reached d blocks s) (hd : ix.denomination = d) (hb : block.Ordered) (hl : block.Lists)
  (hnamed : ∀ hash ∈ block.body.txHashes,
    ix.written block Index.scResults hash (s.get? Index.scResults hash) =
      ix.written block Index.scResults hash none)
  (hn : name ∈ Index.records) (hid : id ∉ block.body.txHashes)
include h hd hb hl hnamed hn hid

/-- From a transaction without results of the block nothing is taken back, and signals come twice. -/
theorem get?_reindexed_of_not_mem_origins (ho : id ∉ block.pool.origins) :
    (ix.reindexed block s).get? name id = (ix.saved block s).get? name id := by
  have hremains := ix.remains_saved block h.usable
  obtain ⟨l, hshows, -⟩ := h.accounted_getD hn id
  have hafter := ix.recordAfter_of_foreign block (hl.find?_transactions hid) (hl.find?_scResults hid) name
  have hnone : Rollback.resultsOf block.body.txHashes (ix.saved block s) id = [] := by
    refine List.eq_nil_iff_forall_not_mem.2 fun hash hm => ho ?_
    obtain ⟨info, hi, horigin⟩ := (mem_resultsOf_saved h.usable hb hl hnamed).1 hm
    exact (mem_origins_iff hb).2 ⟨hash, info, hi, horigin⟩
  rw [get?_reindexed h.usable (Index.mem_revertible_of_mem_records hn), hremains.records name hn, if_neg hid,
    Rollback.unwoundAt, Rollback.find?_parents, ix.get?_saved_records block h.usable hb hn,
    ix.written_records block hb hn]
  simp only [hnone, or_true, ↓reduceIte, hafter, ho, false_or, hd]
  by_cases hsignal : (ix.signals block).has id = true
  · simp only [hsignal, ↓reduceIte, Option.getD_some]
    exact congrArg some ((ix.foreignUpdate block id).addTo_addTo hshows)
  · simp only [hsignal, Bool.false_eq_true, ↓reduceIte]

/-- From a transaction with results of the block their refunds are taken back and given again. -/
theorem reindexed_iff_of_mem_origins (ho : id ∈ block.pool.origins) :
    (ix.reindexed block s).get? name id = (ix.saved block s).get? name id ↔
      ∀ hash info, block.pool.scResults.find? hash = some info → info.result.originHash = id →
        ∀ refund, (Fee.storedRefunds ((s.get? name id).getD .empty)).find? hash = some refund →
          info.refund? = some refund := by
  have hremains := ix.remains_saved block h.usable
  obtain ⟨l, hshows, hacc⟩ := h.accounted_getD hn id
  obtain ⟨paid, hbal⟩ := hacc.balanced
  have hmem : ∀ hash, hash ∈ Rollback.resultsOf block.body.txHashes (ix.saved block s) id ↔
      ∃ info, block.pool.scResults.find? hash = some info ∧ info.result.originHash = id :=
    fun _ => mem_resultsOf_saved h.usable hb hl hnamed
  have hafter := ix.recordAfter_of_foreign block (hl.find?_transactions hid) (hl.find?_scResults hid) name
  have hne : Rollback.resultsOf block.body.txHashes (ix.saved block s) id ≠ [] := by
    obtain ⟨hash, info, hi, horigin⟩ := (mem_origins_iff hb).1 ho
    exact List.ne_nil_of_mem ((hmem hash).2 ⟨info, hi, horigin⟩)
  have hrefund (hash : String) (refund : Refund) :
      (ix.foreignUpdate block id).refunds.find? hash = some refund ↔
        ∃ info, block.pool.scResults.find? hash = some info ∧ info.result.originHash = id ∧
          info.refund? = some refund := Pool.find?_refundsOf_eq_some_iff hb.scResults
  have hids : ∀ hash refund, (ix.foreignUpdate block id).refunds.find? hash = some refund →
      hash ∈ Rollback.resultsOf block.body.txHashes (ix.saved block s) id := by
    intro hash refund hf
    obtain ⟨info, hi, horigin, -⟩ := (hrefund hash refund).1 hf
    exact (hmem hash).2 ⟨info, hi, horigin⟩
  have htype : name ≠ Index.operations → ((s.get? name id).getD .empty).get? "type" = none := by
    intro hop
    cases hg : s.get? name id with
    | none => rfl
    | some doc => simpa [hop, typeOf] using h.get?_type hn (fun he => absurd he hop) hg
  have hiff := (ix.foreignUpdate block id).addTo_unwound_iff (by simp [foreignUpdate, ho]) hshows hbal hids htype
    (Rollback.others block.body.txHashes (ix.saved block s) id)
  rw [get?_reindexed h.usable (Index.mem_revertible_of_mem_records hn), hremains.records name hn, if_neg hid,
    Rollback.unwoundAt, Rollback.find?_parents, ix.get?_saved_records block h.usable hb hn,
    ix.written_records block hb hn, hshows.storedRefunds]
  simp only [hid, hne, or_self, ↓reduceIte, hafter, ho, true_or, hd, Option.some.injEq]
  refine hiff.trans ⟨fun hown hash info hi horigin refund hr => ?_, fun hown hash hm refund hr => ?_⟩
  · have hown := hown hash ((hmem hash).2 ⟨info, hi, horigin⟩) refund hr
    obtain ⟨same, hs, -, hbrought⟩ := (hrefund hash refund).1 hown
    exact Option.some.inj (hs.symm.trans hi) ▸ hbrought
  · obtain ⟨info, hi, horigin⟩ := (hmem hash).1 hm
    exact (hrefund hash refund).2 ⟨info, hi, horigin, hown hash info hi horigin refund hr⟩

/-- A transaction that the body does not name is the same again exactly if it had no refund but the
block's own under the results of the block. -/
theorem reindexed_foreign_iff :
    (ix.reindexed block s).get? name id = (ix.saved block s).get? name id ↔
      ∀ hash info, block.pool.scResults.find? hash = some info → info.result.originHash = id →
        ∀ doc, s.get? name id = some doc → ∀ refund, (Fee.storedRefunds doc).find? hash = some refund →
          info.refund? = some refund := by
  by_cases ho : id ∈ block.pool.origins
  · rw [reindexed_iff_of_mem_origins h hd hb hl hnamed hn hid ho]
    cases s.get? name id with
    | none => simp [(Ledger.shows_empty (d := d)).storedRefunds]
    | some doc => simp
  · refine iff_of_true (get?_reindexed_of_not_mem_origins h hd hb hl hnamed hn hid ho) ?_
    exact fun hash info hi horigin => absurd ((mem_origins_iff hb).2 ⟨hash, info, hi, horigin⟩) ho

end Foreign

/-- The block saved last is reproduced by reverting it and saving it again exactly if the store held
nothing that the revert takes and the block does not give. -/
theorem reindexed_iff (h : Reached d blocks s) (hd : ix.denomination = d) (hb : block.Ordered)
    (hl : block.Lists) :
    (∀ name ∈ Index.revertible, ∀ id,
        (ix.reindexed block s).get? name id = (ix.saved block s).get? name id) ↔
      ix.Reproducible block s := by
  constructor
  · intro same
    have hnamed : ∀ name ∈ [Index.transactions, Index.operations, Index.scResults], ∀ id ∈ block.body.txHashes,
        ix.written block name id (s.get? name id) = ix.written block name id none := by
      intro name hn id hid
      simp only [List.mem_cons, List.not_mem_nil, or_false] at hn
      rcases hn with rfl | rfl | rfl
      · exact (reindexed_named_iff h.usable (by decide) hid).1 (same _ (by decide) id)
      · exact (reindexed_named_iff h.usable (by decide) hid).1 (same _ (by decide) id)
      · exact (reindexed_scResults_iff h.usable hb hl id).1 (same _ (by decide) id) hid
    refine ⟨hnamed, fun m hm hsent => ?_, fun id => ?_, fun name hn hash info hi hout => ?_⟩
    · exact (reindexed_miniBlocks_iff h m.hashHex).1 (same _ (by decide) _) ⟨m, hm, rfl, hsent⟩
    · exact (reindexed_balances_iff h.usable id).1 (same _ (by decide) id)
    · have hresults := hnamed Index.scResults (by decide)
      have hrecord := same name (Index.mem_revertible_of_mem_records hn) info.result.originHash
      exact (reindexed_foreign_iff h hd hb hl hresults hn hout).1 hrecord hash info hi rfl
  · intro hr name hn id
    have hresults := hr.named Index.scResults (by decide)
    have hrecords : ∀ name ∈ Index.records,
        (ix.reindexed block s).get? name id = (ix.saved block s).get? name id := by
      intro name hn
      by_cases hid : id ∈ block.body.txHashes
      · exact (reindexed_named_iff h.usable hn hid).2 (hr.named name (Index.mem_of_mem_records hn) id hid)
      · refine (reindexed_foreign_iff h hd hb hl hresults hn hid).2 fun hash info hi horigin => ?_
        exact horigin ▸ hr.refunds name hn hash info hi (horigin ▸ hid)
    simp only [Index.revertible, List.mem_cons, List.not_mem_nil, or_false] at hn
    rcases hn with rfl | rfl | rfl | rfl | rfl | rfl
    · exact hrecords _ (by decide)
    · exact hrecords _ (by decide)
    · exact (reindexed_scResults_iff h.usable hb hl id).2 (hresults id)
    · refine (reindexed_miniBlocks_iff h id).2 ?_
      rintro ⟨m, hm, rfl, hsent⟩
      exact hr.sent m hm hsent
    · exact get?_reindexed_blocks h.usable id
    · exact (reindexed_balances_iff h.usable id).2 (hr.balances id)

end Reindexed

/-- The mark of results that an earlier block gave to a transaction of the block is lost. -/
theorem not_reproducible_of_earlier_result {d : Denomination} {blocks : List Block} {block earlier : Block}
    {s : Store} {ix : Indexer} {id : String} {info : TxInfo} (h : Reached d blocks s) (hb : block.Ordered)
    (hid : id ∈ block.body.txHashes) (hi : block.pool.transactions.find? id = some info)
    (ho : id ∉ block.pool.origins) (hm : earlier ∈ blocks) (he : id ∈ earlier.pool.origins) :
    ¬ix.Reproducible block s := by
  intro hr
  have hrecords : Index.transactions ∈ Index.records := by decide
  have hoperations : Index.transactions ≠ Index.operations := by decide
  obtain ⟨doc, hdoc, hmark⟩ := h.marked hrecords (fun hn => absurd hn hoperations) hm he
  have hheld (stored : Option Value) : ix.recordAfter block Index.transactions id stored =
      some (Mutation.applyAll ((ix.heldTx block id info).mutations ++ typing Index.transactions)
        (stored.getD .empty)) := by
    unfold recordAfter
    rw [if_neg hoperations, ix.changes?_of_held block hi]
  have hnone : (ix.heldTx block id info).record.hasScResults = false := by
    change block.pool.origins.contains id = false
    simpa using ho
  have hget (stored : Value) : (Mutation.applyAll ((ix.heldTx block id info).mutations ++
      typing Index.transactions) stored).get? Rollback.hasScResults = stored.get? Rollback.hasScResults := by
    rw [ix.get?_held block info _ stored (by decide) (by decide) (by decide),
      TransactionRecord.get?_toValue_hasScResults, hnone]
    simp
  have hsame := hr.named Index.transactions (by decide) id hid
  rw [ix.written_records block hb hrecords, ix.written_records block hb hrecords, hheld, hheld, hdoc,
    Option.some.injEq] at hsame
  have hfield := congrArg (·.get? Rollback.hasScResults) hsame
  simp only [hget, Option.getD_some, Option.getD_none, hmark, Value.get?_empty] at hfield
  cases hfield

def Alike (ix other : Indexer) : Prop := ∃ events stats, other = { ix with events, stats }

theorem alike_saveBlock (ix : Indexer) (block : Block) (s : Store) : ix.Alike (ix.saveBlock block s).2.1 := by
  unfold saveBlock countSaved
  dsimp only
  split <;> exact ⟨_, _, rfl⟩

theorem alike_revertBlock (ix : Indexer) (header : Header) (body : Body) (s : Store) :
    ix.Alike (ix.revertBlock header body s).2.1 := by
  unfold revertBlock
  dsimp only
  split <;> exact ⟨_, _, rfl⟩

theorem Alike.trans {ix second third : Indexer} (h : ix.Alike second) (h' : second.Alike third) :
    ix.Alike third := by
  obtain ⟨_, _, rfl⟩ := h
  obtain ⟨events, stats, rfl⟩ := h'
  exact ⟨events, stats, rfl⟩

theorem Alike.saveBlock_eq {ix other : Indexer} (h : ix.Alike other) (block : Block) (s : Store) :
    (other.saveBlock block s).1 = (ix.saveBlock block s).1 ∧ other.saved block s = ix.saved block s := by
  obtain ⟨events, stats, rfl⟩ := h
  exact ⟨rfl, rfl⟩

/-- Indexers that differ in counters only revert alike. -/
theorem Alike.revertBlock_eq {ix other : Indexer} (h : ix.Alike other) (header : Header) (body : Body)
    (s : Store) :
    (other.revertBlock header body s).1 = (ix.revertBlock header body s).1 ∧
      other.reverted header body s = ix.reverted header body s := by
  obtain ⟨events, stats, rfl⟩ := h
  have hdenomination : ({ ix with events, stats } : Indexer).denomination = ix.denomination := rfl
  unfold reverted revertBlock
  rw [hdenomination]
  dsimp only
  split <;> exact ⟨rfl, rfl⟩

/-- The block saved last can always be reverted and saved again. All its documents and all that it
changed are then as before exactly if the store held nothing that the revert takes and the block does
not give. -/
theorem revert_save_reproduces_iff {d : Denomination} {blocks : List Block} {block : Block} {s : Store}
    {ix : Indexer} (h : Reached d blocks s) (hd : ix.denomination = d) (hb : block.Ordered)
    (hl : block.Lists) :
    let saved := ix.saveBlock block s
    let reverted := saved.2.1.revertBlock block.header block.body saved.2.2
    let again := reverted.2.1.saveBlock block reverted.2.2
    (∃ report, saved.1 = .ok report) ∧ reverted.1 = .ok () ∧ (∃ report, again.1 = .ok report) ∧
      ((∀ name ∈ Index.revertible, ∀ id, again.2.2.get? name id = saved.2.2.get? name id) ↔
        ix.Reproducible block s) := by
  intro saved reverted again
  have hsecond : ix.Alike saved.2.1 := ix.alike_saveBlock block s
  have hthird : ix.Alike reverted.2.1 := hsecond.trans (saved.2.1.alike_revertBlock _ _ _)
  obtain ⟨hreport, husable, -⟩ := ix.saveBlock_spec block h.usable
  obtain ⟨hok, hremains⟩ := ix.revertBlock_spec block.header block.body husable
  obtain ⟨hreverted, hleft⟩ := hsecond.revertBlock_eq block.header block.body (ix.saved block s)
  have hleft : reverted.2.2 = ix.reverted block.header block.body (ix.saved block s) := hleft
  obtain ⟨hagain, hstore⟩ := hthird.saveBlock_eq block reverted.2.2
  obtain ⟨hreport', -, -⟩ := ix.saveBlock_spec block hremains.usable
  have hstore : again.2.2 = ix.reindexed block s := by
    refine Eq.trans hstore ?_
    rw [hleft, reindexed]
  refine ⟨hreport, hreverted.trans hok, ?_, ?_⟩
  · rw [← hleft] at hreport'
    exact hagain.symm ▸ hreport'
  · rw [hstore]
    exact reindexed_iff h hd hb hl

/-- A refund comes before its transaction, whose block is reverted and saved again. The mark that the
earlier block gave to the transaction is lost. -/
theorem revert_save_reproduces_iff_early_refund :
    let ix : Indexer := {}
    let refund : ScResultInfo :=
      { result := { originTxHash := [0xaa, 0xaa, 0xaa, 0xaa] }
        feeInfo := { fee := ⟨100000, by decide⟩, gasRefunded := 5000 } }
    let info : TxInfo :=
      { feeInfo := { fee := ⟨1000000, by decide⟩, gasUsed := 50000, initialPaidFee := ⟨1000000, by decide⟩ } }
    let first : Block :=
      { header := { hash := [1], timestamp := 101 }
        body := ⟨[{ hash := [0x5c], kind := .scResults, txHashes := [[0xb1, 0xb1, 0xb1, 0xb1]] }]⟩
        pool := { scResults := [("b1b1b1b1", refund)] } }
    let second : Block :=
      { header := { hash := [2], timestamp := 102 }
        body := ⟨[{ hash := [0x4d], txHashes := [[0xaa, 0xaa, 0xaa, 0xaa]] }]⟩
        pool := { transactions := [("aaaaaaaa", info)] } }
    let s := ix.saved first (Store.withPageSize 10)
    let saved := ix.saveBlock second s
    let reverted := saved.2.1.revertBlock second.header second.body saved.2.2
    let again := reverted.2.1.saveBlock second reverted.2.2
    Reached ix.denomination [first] s ∧ second.Ordered ∧ second.Lists ∧
      ¬∀ name ∈ Index.revertible, ∀ id, again.2.2.get? name id = saved.2.2.get? name id := by
  intro ix refund info first second s
  have hfirst : first.Ordered := ⟨by simp [first, Dict.Sorted], by simp [first, Dict.Sorted]⟩
  have hsecond : second.Ordered := ⟨by simp [second, Dict.Sorted], by simp [second, Dict.Sorted]⟩
  have hhash : second.body.txHashes = ["aaaaaaaa"] := by decide
  have hlists : second.Lists := by
    refine ⟨fun hash hf => ?_, fun hash hf => ?_⟩
    · have hkeys := Dict.has_iff.1 hf
      rw [hhash]
      exact hkeys
    · cases hf
  obtain ⟨⟨report, hreport⟩, -, -⟩ := ix.saveBlock_spec first (Store.usable_withPageSize 10)
  have hreached : Reached ix.denomination [first] s := .save ix (.start 10) rfl hfirst hreport
  have hheld : "aaaaaaaa" ∈ second.body.txHashes := hhash ▸ List.mem_singleton_self _
  have horigin : "aaaaaaaa" ∈ first.pool.origins := by decide
  have hlost : ¬ix.Reproducible second s :=
    not_reproducible_of_earlier_result hreached hsecond hheld rfl (by decide) List.mem_cons_self horigin
  have hmain := revert_save_reproduces_iff hreached rfl hsecond hlists
  exact ⟨hreached, hsecond, hlists, fun same => hlost (hmain.2.2.2.1 same)⟩

end Indexer
end ChainIndex
